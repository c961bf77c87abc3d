import ForthAssembler.Assembler.Feed
import ForthAssembler.Session.Transcript
import ForthAssembler.Text.Grouped
import ForthAssembler.Text.Words

/-! Sessions: lines of input are read word by word, without comments, and fed. -/
namespace ForthAssembler.Session
open Text

inductive Next
  | word
  | line
  | stop (halt : Halt)
  deriving DecidableEq, Repr

/-- What an outcome prints; code that was compiled is listed only while tracing. -/
def printed (a : Assembler) : Outcome → List String
  | .report text => [text]
  | .compiled start stop | .defined _ _ start stop =>
    if a.options.trace then a.dictionary.traceText start stop else []
  | .done | .execute _ => []

def executed : Outcome → Option Token
  | .execute token => some token
  | _ => none

def errorText (error : Error) : String := "ERROR: " ++ error.message

/-- Feeds a word. After an error the open definition is dropped, and with it the rest of the
line. -/
def feed (a : Assembler) (word : String) : Exchange × Assembler × Next :=
  match (Action.feed word).run a with
  | .ok outcome a => (⟨word, printed a outcome, executed outcome⟩, a, .word)
  | .error (.violated assertion) a => (⟨word, [], none⟩, a, .stop (.violated assertion))
  | .error (.refused error) a =>
    match Action.abort.run a with
    | .ok _ a => (⟨word, [errorText error], none⟩, a, .line)
    | .error halt a => (⟨word, [errorText error], none⟩, a, .stop halt)

structure Progress where
  assembler : Assembler
  inComment : Bool
  exchanges : List Exchange
  halt : Option Halt

/-- Reads the words of a line. A comment runs from a word `(` to a word that ends in `)`, and a word
`\` drops the rest of the line; inside a string both are words like any other. -/
def readWords (inComment : Bool) : List String → Assembler → Progress
  | [], a => ⟨a, inComment, [], none⟩
  | word :: rest, a =>
    if inComment then readWords (word.toList.getLast? != some ')') rest a
    else if !a.isCollecting && word == "(" then readWords true rest a
    else if !a.isCollecting && word == "\\" then ⟨a, false, [], none⟩
    else
      match feed a word with
      | (exchange, a, .word) =>
        let later := readWords false rest a
        { later with exchanges := exchange :: later.exchanges }
      | (exchange, a, .line) => ⟨a, false, [exchange], none⟩
      | (exchange, a, .stop halt) => ⟨a, false, [exchange], some halt⟩

def undecodable : Error := .unavailable "stream did not contain valid UTF-8"

def readLines (inComment : Bool) : List (List UInt8) → Assembler → Progress
  | [], a => ⟨a, inComment, [], none⟩
  | line :: rest, a =>
    match ofUtf8? line with
    | none => ⟨a, inComment, [], some (.refused undecodable)⟩
    | some text =>
      let progress := readWords inComment (words text) a
      if progress.halt.isSome then progress
      else
        let later := readLines progress.inComment rest progress.assembler
        { later with exchanges := progress.exchanges ++ later.exchanges }

def greeting (a : Assembler) : List String :=
  ["Welcome to nForth", "capacity = " ++ grouped a.dictionary.memory.size ++ " bytes",
    "unused " ++ grouped a.dictionary.memory.unused ++ " bytes"]

def finish (a : Assembler) : List String × Option Halt × Assembler :=
  match Action.finish.run a with
  | .ok _ a => (["Bye!"], none, a)
  | .error (.violated assertion) a => ([], some (.violated assertion), a)
  | .error (.refused error) a =>
    match Action.abort.run a with
    | .ok _ a => ([errorText error, "Bye!"], none, a)
    | .error halt a => ([errorText error], some halt, a)

/-- Feeds all words of an input. -/
def run (a : Assembler) (input : List UInt8) : Transcript × Assembler :=
  let progress := readLines false (lines input) a
  match progress.halt with
  | some halt => (⟨greeting a, progress.exchanges, [], some halt⟩, progress.assembler)
  | none =>
    let (farewell, halt, last) := finish progress.assembler
    (⟨greeting a, progress.exchanges, farewell, halt⟩, last)

end ForthAssembler.Session
