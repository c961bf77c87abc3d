import ForthAssembler.Control.Plan
import ForthAssembler.Storage
import ForthAssembler.Token.Classify

/-! The state of an assembler, and the actions on it. -/
namespace ForthAssembler

structure Definition where
  name : String
  address : Nat
  /-- The head of the dictionary before the definition was opened. -/
  previous : Link
  deriving DecidableEq, Repr

/-- Commands that take the next word as a name. -/
inductive NameUse
  | colon
  | variable
  | constant
  | forget
  | see
  deriving DecidableEq, Repr

def NameUse.spelling : NameUse → String
  | colon => ":"
  | «variable» => "VAR"
  | constant => "VAL"
  | forget => "FGT"
  | see => "SEE"

/-- What the next word is taken for. -/
inductive Awaiting
  | nothing
  | name (use : NameUse)
  | operand
  | text (collected : Option String)
  deriving DecidableEq, Repr

/-- What came of a word. Ranges are those of the code that it compiled. -/
inductive Outcome
  | done
  | compiled (start stop : Nat)
  | defined (name : String) (address start stop : Nat)
  | execute (token : Token)
  | report (text : String)
  deriving DecidableEq, Repr

structure Assembler where
  dictionary : Dictionary
  options : Options
  /-- Whether words are compiled or interpreted. -/
  mode : Mode := .interpret
  /-- Open control structures, the innermost first. -/
  frames : List Frame := []
  awaiting : Awaiting := .nothing
  definition : Option Definition := none
  /-- Numbers given while no definition was open, the latest first. -/
  literals : List Int16 := []
  storage : Storage := .empty

/-- An action keeps what it has changed also when it fails. -/
abbrev Action := EStateM Halt Assembler

namespace Assembler

def new (capacity : Capacity) (options : Options) (storage : Storage) : Assembler where
  dictionary := .blank capacity
  options := options
  storage := storage

def literalLimit : Nat := 16

def isCompiling (a : Assembler) : Bool := a.definition.isSome

def isCollecting (a : Assembler) : Bool := a.awaiting matches .text _

def here (a : Assembler) : Nat := a.dictionary.here

def classify (a : Assembler) (text : String) : Token :=
  Token.classify a.dictionary a.mode a.options text

def find? (a : Assembler) (name : String) : Option Entry :=
  a.dictionary.find? a.options.foldCase name

/-- The code offset of the most recent visible word with a name. -/
def lookup? (a : Assembler) (name : String) : Option Nat := (a.find? name).map (·.code)

end Assembler

namespace Action
variable {α : Type}

def refuse (error : Error) : Action α := throw (.refused error)

def ofExcept (result : Except Error α) : Action α :=
  match result with
  | .ok value => pure value
  | .error error => refuse error

def ofChecked (result : Except Assertion α) : Action α :=
  match result with
  | .ok value => pure value
  | .error assertion => throw (.violated assertion)

def ofHalting (result : Except Halt α) : Action α :=
  match result with
  | .ok value => pure value
  | .error halt => throw halt

def requireClosed : Action Unit := do
  if (← get).isCompiling then refuse .definitionOpen

def setDictionary (dictionary : Dictionary) : Action Unit :=
  modify fun a => { a with dictionary }

def setFrames (frames : List Frame) : Action Unit :=
  modify fun a => { a with frames }

def setMode (mode : Mode) : Action Unit :=
  modify fun a => { a with mode }

def await (awaiting : Awaiting) : Action Unit :=
  modify fun a => { a with awaiting }

/-- Ends the wait for an operand, and gives what was awaited. -/
def takeAwaiting : Action Awaiting :=
  modifyGet fun a => (a.awaiting, { a with awaiting := .nothing })

/-- Keeps a number, and drops the oldest one once the limit is reached. -/
def pushLiteral (value : Int16) : Action Unit :=
  modify fun a => { a with literals := (value :: a.literals).take Assembler.literalLimit }

def popLiteral : Action Int16 := do
  match (← get).literals with
  | [] => refuse .literalStackEmpty
  | value :: literals =>
    modify fun a => { a with literals }
    return value

end Action
end ForthAssembler
