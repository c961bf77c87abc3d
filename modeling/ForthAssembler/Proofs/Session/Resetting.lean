import ForthAssembler.Proofs.Assembler.Revoking
import ForthAssembler.Proofs.Session.Attains
import ForthAssembler.Proofs.Session.Lockstep

/-! Resetting an assembler makes it a new one, whatever was done to it. -/
namespace ForthAssembler
open Assembler

/-- Wherever operations lead, resetting fails nothing and leaves what a new assembler is with the
same capacity, the options of the moment and the same store. No operations tell the two apart. -/
theorem Attains.reset_eq_new {capacity : Capacity} {options : Options} {storage : Storage}
    {a : Assembler} (h : Attains (fun _ => True) (.new capacity options storage) a) :
    Operation.reset.perform.run a = .ok .done (.new capacity a.options a.storage) ∧
      ∀ operations, Operation.replies operations (Operation.reset.settle a) =
        Operation.replies operations (.new capacity a.options a.storage) := by
  have hrevocable : Revocable capacity a :=
    h.of_change (fun _ _ _ => Revocable.change) (.new capacity options storage)
  have hreset := Action.ensures_reset_revocable hrevocable
  have hperform : Operation.reset.perform.Ensures
      (fun reply a' => reply = .done ∧ a' = .new capacity a.options a.storage)
      (fun _ _ => False) a := by
    rw [Operation.perform, Action.ensures_map]
    exact hreset.imp fun _ _ heq => ⟨rfl, heq⟩
  obtain ⟨_, _, hrun, rfl, rfl⟩ := hperform.exists_run
  refine ⟨hrun, fun operations => ?_⟩
  rw [Operation.settle, hrun]

/-- An image that was loaded, more literals than are kept, and a definition with an open loop and an
operand awaited. -/
theorem Attains.reset_eq_new_open :
    let capacity : Capacity := ⟨64, by decide, by decide⟩
    let s : Assembler := .new capacity {} .empty
    let loading := [.defineConstant "A" 7, .saveToStorage false, .loadFromStorage, .feed "HEX"]
    let operations := loading ++ List.replicate 17 (.pushLiteral 1) ++
      [.define "W", .feed "BEGIN", .feed "LIT"]
    let a := Operation.settleAll operations s
    (a.options.hex = true ∧ a.literals.length = 16 ∧ a.frames = [.loop a.here []] ∧
      a.isCompiling = true ∧ a.awaiting = .operand) ∧
      Operation.reset.perform.run a = .ok .done (.new capacity a.options a.storage) ∧
      ∀ operations, Operation.replies operations (Operation.reset.settle a) =
        Operation.replies operations (.new capacity a.options a.storage) := by
  intro capacity s loading operations a
  have h : Attains (fun _ => True) s a :=
    Attains.refl.settleAll (fun _ _ => trivial) (by decide +kernel)
  exact ⟨by decide +kernel, h.reset_eq_new⟩

end ForthAssembler
