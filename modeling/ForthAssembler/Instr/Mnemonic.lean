import ForthAssembler.Instr.Basic
import ForthAssembler.Text.Case

/-! Names of the operations, each with a short and a long spelling. -/
namespace ForthAssembler
open Text

structure Mnemonic (α : Type) where
  short : String
  long : String
  meaning : α

namespace Mnemonic
variable {α : Type}

/-- The meaning of the first word with this spelling. -/
def find? (foldCase : Bool) (table : List (Mnemonic α)) (name : String) : Option α :=
  (table.find? fun word => sameName foldCase name word.short || sameName foldCase name word.long).map
    (·.meaning)

def long? [BEq α] (table : List (Mnemonic α)) (meaning : α) : Option String :=
  (table.find? (·.meaning == meaning)).map (·.long)

def primitiveSpellings : List (String × String) :=
  [("DRP", "DROP"), ("DUP", "DUP"), ("SWP", "SWAP"), ("OVR", "OVER"), ("ROT", "ROT"),
    ("+", "+"), ("-", "-"), ("*", "*"), ("/", "/"), ("MOD", "MOD"), ("NEG", "NEGATE"),
    ("AND", "AND"), ("OR", "OR"), ("XOR", "XOR"), ("NOT", "INVERT"), ("LSH", "LSHIFT"),
    ("RSH", "RSHIFT"),
    ("=", "="), ("<", "<"), (">", ">"), ("<>", "<>"),
    ("@", "@"), ("!", "!"), ("C@", "C@"), ("C!", "C!"),
    ("KEY", "KEY"), ("EMT", "EMIT"), ("CR", "CR"), (".", "."),
    (">R", ">R"), ("R>", "R>"),
    ("HRE", "HERE"), ("RND", "RANDOM"), ("ALO", "ALLOT"),
    ("TRC", "TRC"), ("CLK", "CLOCK"),
    ("D+", "D+"), ("D-", "D-"), ("DNG", "DNEGATE"), ("ABS", "ABS"), ("MAX", "MAX"), ("MIN", "MIN"),
    ("DLY", "DELAY"), ("IN", "IN"), ("AIN", "AIN"), ("OUT", "OUT"), ("PWM", "PWM"), ("PIN", "PIN"),
    ("EXE", "EXECUTE"), (",", ","), ("C,", "C,")]

/-- The primitives; each means its position in the table. -/
def primitives : List (Mnemonic UInt8) :=
  primitiveSpellings.zipIdx.map fun ((short, long), id) => ⟨short, long, UInt8.ofNat id⟩

def extendeds : List (Mnemonic Extended) :=
  [⟨"LIT", "LIT", .literal⟩, ⟨"DQ", ".\"", .text⟩, ⟨"FOR", "FOR", .forLoop⟩,
    ⟨"NXT", "NEXT", .next⟩, ⟨"I", "I", .index⟩, ⟨"BRK", "BRK", .leave⟩]

/-- Primitives leave the top of the operation space free. -/
theorem length_primitives_le : primitives.length ≤ Extended.text.id.toNat := by
  decide

end Mnemonic

def primitiveName? (id : UInt8) : Option String :=
  Mnemonic.long? Mnemonic.primitives id

/-- The long spelling of a primitive, or its number. -/
def primitiveLabel (id : UInt8) : String :=
  (primitiveName? id).getD ("?" ++ toString id)

/-- The long spelling of an extended operation, or its number. -/
def extendedLabel (id : UInt8) : String :=
  ((Extended.ofId? id).bind (Mnemonic.long? Mnemonic.extendeds)).getD ("?" ++ toString id)

end ForthAssembler
