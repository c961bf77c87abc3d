import ForthAssembler.Session.Run

/-! The operations on an assembler, and their results. -/
namespace ForthAssembler

inductive Operation
  | feed (text : String)
  | run (input : List UInt8)
  | classify (text : String)
  | compile (token : Token)
  | define (name : String)
  | defineVariable (name : String)
  | defineConstant (name : String) (value : Int16)
  | forget (name : String)
  | close
  | finish
  | abort
  | reset
  | pushLiteral (value : Int16)
  | popLiteral
  | lookup (name : String)
  | require (name : String)
  | save (autorun : Bool)
  | load (blob : List UInt8)
  | saveToStorage (autorun : Bool)
  | loadFromStorage
  | status
  | words
  | vocabulary
  | trace (start stop : Nat)
  | dump (start length : Nat)
  | see (name : String)
  | entries
  deriving DecidableEq, Repr

inductive Reply
  | done
  | outcome (outcome : Outcome)
  | finished (outcome : Option Outcome)
  | transcript (transcript : Transcript)
  | token (token : Token)
  | number (value : Nat)
  | found (value : Option Nat)
  | literal (value : Int16)
  | blob (bytes : List UInt8)
  | status (status : Status)
  | text (text : String)
  | lines (lines : List String)
  | entries (entries : List Entry)
  deriving DecidableEq, Repr

namespace Action

/-- Runs a session over an input. It fails only where an assertion does. -/
def session (input : List UInt8) : Action Transcript := fun a =>
  match Session.run a input with
  | (transcript, a) =>
    match transcript.halt with
    | some (.violated assertion) => .error (.violated assertion) a
    | _ => .ok transcript a

/-- The code offset of the most recent visible word with a name, which must be there. -/
def require (name : String) : Action Nat := do
  match (← get).lookup? name with
  | some code => return code
  | none => refuse (.unknownWord name)

end Action

def Operation.perform : Operation → Action Reply
  | feed text => .outcome <$> Action.feed text
  | run input => .transcript <$> Action.session input
  | classify text => return .token ((← get).classify text)
  | compile token => .outcome <$> Action.compile token
  | define name => .number <$> Action.define name
  | defineVariable name => .number <$> Action.defineVariable name
  | defineConstant name value => .number <$> Action.defineConstant name value
  | forget name => .number <$> Action.forget name
  | close => .outcome <$> Action.close
  | finish => .finished <$> Action.finish
  | abort => (fun _ => .done) <$> Action.abort
  | reset => (fun _ => .done) <$> Action.reset
  | pushLiteral value => (fun _ => .done) <$> Action.pushLiteral value
  | popLiteral => .literal <$> Action.popLiteral
  | lookup name => return .found ((← get).lookup? name)
  | require name => .number <$> Action.require name
  | save autorun => .blob <$> Action.save autorun
  | load blob => .found <$> Action.load blob
  | saveToStorage autorun => .number <$> Action.saveToStorage autorun
  | loadFromStorage => .found <$> Action.loadFromStorage
  | status => return .status (← get).dictionary.status
  | words => return .lines (← get).dictionary.words
  | vocabulary => do
    let a ← get
    return .text (a.dictionary.vocabulary a.options.trace)
  | trace start stop => return .lines ((← get).dictionary.traceText start stop)
  | dump start length =>
    return .lines (((← get).dictionary.memory.dump start length).map DumpLine.render)
  | see name => do
    let a ← get
    Reply.lines <$> Action.ofExcept (a.dictionary.see a.options.foldCase name)
  | entries => return .entries (← get).dictionary.entries

end ForthAssembler
