import ForthAssembler.Proofs.Assembler.Demand
import ForthAssembler.Proofs.Assembler.Reading

/-! What is refused changes nothing, in whatever state it is tried. -/
namespace ForthAssembler

/-- A session goes on after a refusal. -/
theorem Action.meets_session (input : List UInt8) (a : Assembler) :
    (session input).Meets (fun _ _ => True) (fun _ _ => False) True a := by
  unfold Meets session
  simp only [EStateM.run]
  split
  · trivial
  · rename_i heq
    split at heq <;> simp at heq
  · trivial

namespace Operation
variable {a a' : Assembler}

theorem meets_perform (operation : Operation) :
    operation.perform.Meets (fun _ _ => True) (fun _ a' => a' = operation.dropAwaiting a) True
      a := by
  by_cases hrun : ∃ input, operation = run input
  · obtain ⟨input, rfl⟩ := hrun
    rw [perform, Action.meets_map]
    exact (Action.meets_session input a).mono (fun _ _ h => h) (fun _ _ h => h.elim) id
  · exact (does_perform fun input heq => hrun ⟨input, heq⟩).refuses

/-- An operation that is refused leaves everything as it was, in whatever state. Only a word that
was awaited is not awaited any more. -/
theorem state_of_refused {operation : Operation} {e : Error}
    (h : operation.perform.run a = .error (.refused e) a') : a' = operation.dropAwaiting a :=
  (meets_perform operation).of_refused h

/-- `ELSE` in an image of 7 bytes, after `: A IF`. -/
theorem state_of_refused_else :
    ∃ a a', (performAll [define "A", compile (.compileWord .ifWord)]).run
      (.new ⟨7, by decide, by decide⟩ {} .empty) = .ok () a ∧
    (compile (.compileWord .elseWord)).perform.run a = .error (.refused (.outOfSpace 2 1)) a' ∧
    a' = a :=
  ⟨_, _, rfl, rfl, @state_of_refused _ _ (compile (.compileWord .elseWord)) _ rfl⟩

end Operation
end ForthAssembler
