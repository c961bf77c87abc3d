import ForthAssembler.Instr.Codec
import ForthAssembler.Memory.Basic

/-! Appending code while branches that were left open get their targets. -/
namespace ForthAssembler

/-- A branch at `site` that is to go to `target`. -/
structure Patch where
  site : Nat
  target : Nat
  deriving DecidableEq, Repr

/-- The opcode of the branch that starts with a byte. -/
def branchOpcode (first : UInt8) : UInt8 := first / 16 * 16

/-- The cell that takes the place of an open branch. -/
def Patch.word (m : Memory) (patch : Patch) : Except Error Nat :=
  match m.get8? patch.site with
  | none => .error (.addressOverflow patch.site)
  | some first => Instr.branchWord (branchOpcode first) patch.target

namespace Memory

/-- Appends code and fills in branches, once all of it is known to fit. Gives the offset of the
code. -/
def commit (m : Memory) (code : List UInt8) (patches : List Patch) : Except Halt (Nat × Memory) :=
  if m.unused < code.length then .error (.refused (.outOfSpace code.length m.unused))
  else
    match patches.mapM (Patch.word m), m.push? code with
    | .error error, _ => .error (.refused error)
    | .ok _, none => .error (.refused (.outOfSpace code.length m.unused))
    | .ok words, some (start, grown) =>
      match (patches.zip words).foldlM (fun m (patch, word) => m.set16? patch.site word) grown with
      | none => .error (.violated .siteAllocated)
      | some filled => .ok (start, filled)

end Memory
end ForthAssembler
