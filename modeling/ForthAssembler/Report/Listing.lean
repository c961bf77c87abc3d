import ForthAssembler.Dictionary.Basic
import ForthAssembler.Instr.Listing

/-! Listing the code of a dictionary. -/
namespace ForthAssembler.Dictionary

/-- The most recent entry, visible or not, whose code starts at an offset. -/
def entryOfCode? (d : Dictionary) (code : Nat) : Option Entry :=
  d.entries.find? fun entry => entry.code == code

/-- A line of a listing, with the name of the word that a call goes to. -/
def annotate (d : Dictionary) (line : Line) : String :=
  let name? := match line.instr with
    | some (.call target) => (d.entryOfCode? target).map (·.name)
    | _ => none
  match name? with
  | some name => line.render ++ " " ++ name
  | none => line.render

/-- The lines of the code from one offset up to another. -/
def trace (d : Dictionary) (start stop : Nat) : List Line :=
  disassemble start (d.memory.range start stop)

def traceText (d : Dictionary) (start stop : Nat) : List String :=
  (d.trace start stop).map d.annotate

/-- Where the code of an entry ends: at the next younger entry, or else at the cursor. -/
def codeEnd (d : Dictionary) (entry : Entry) : Nat :=
  let younger := d.entries.takeWhile fun e => e.address != entry.address
  (younger.getLast?.map (·.address)).getD d.here

def see (d : Dictionary) (foldCase : Bool) (name : String) : Except Error (List String) :=
  match d.find? foldCase name with
  | none => .error (.unknownWord name)
  | some entry => .ok (d.traceText entry.code (d.codeEnd entry))

end ForthAssembler.Dictionary
