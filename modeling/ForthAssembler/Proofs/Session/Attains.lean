import ForthAssembler.Proofs.Session.Ledger
import ForthAssembler.Proofs.Session.Runs

/-! The states that operations lead to when any bytes may be loaded. -/
namespace ForthAssembler

namespace Operation

/-- All operations but compiling a token or closing a definition behind the back of the input. -/
def Regular : Operation → Prop
  | compile _ | close => False
  | _ => True

/-- The state after some operations, whatever comes of each. -/
def settleAll (operations : List Operation) (a : Assembler) : Assembler :=
  operations.foldl settle a

/-- The assertion that the operation fails, if any. -/
def violation? (a : Assembler) (operation : Operation) : Option Assertion :=
  match operation.perform.run a with
  | .error (.violated assertion) _ => some assertion
  | _ => none

variable {a : Assembler} {operation : Operation}

theorem of_meets_settle {P : Assembler → Prop} {violated : Prop}
    (h : operation.perform.Meets (fun _ => P) (fun _ => P) violated a)
    (hsound : operation.violation? a = none) : P (operation.settle a) := by
  unfold settle
  obtain ⟨reply, a', hrun, ha'⟩ | ⟨e, a', hrun, ha'⟩ | ⟨assertion, a', hrun, -⟩ := h.run_cases
  · rwa [hrun]
  · rwa [hrun]
  · simp [violation?, hrun] at hsound

/-- What no change takes away stays, whatever comes of an operation. -/
theorem of_change_settle {P : Assembler → Prop}
    (hP : ∀ demand a a', P a → Assembler.Change demand a a' → P a') (h : P a)
    (hsound : operation.violation? a = none) : P (operation.settle a) := by
  refine @of_meets_settle a operation P True ?_ hsound
  by_cases hrun : ∃ input, operation = run input
  · obtain ⟨input, rfl⟩ := hrun
    rw [perform, Action.meets_map]
    exact (Session.Invariant.of_change hP).meets_session h input
  · have hdrop : P (operation.dropAwaiting a) := of_dropAwaiting h (hP {} a _ h .beside) operation
    exact (does_perform fun input heq => hrun ⟨input, heq⟩).keeps hdrop fun a' => hP _ _ a' hdrop

theorem violation?_of_ensures {ok : Reply → Assembler → Prop} {refused : Error → Assembler → Prop}
    (h : operation.perform.Ensures ok refused a) : operation.violation? a = none := by
  obtain ⟨reply, a', hrun, -⟩ | ⟨e, a', hrun, -⟩ := h.run_cases <;> simp [violation?, hrun]

/-- None of the operations fails an assertion. -/
def soundAll : List Operation → Assembler → Bool
  | [], _ => true
  | operation :: rest, a => (operation.violation? a).isNone && soundAll rest (operation.settle a)

theorem of_ensures_settle {P : Assembler → Prop}
    (h : operation.perform.Ensures (fun _ => P) (fun _ => P) a) : P (operation.settle a) :=
  of_meets_settle (show operation.perform.Meets _ _ False a from h) (violation?_of_ensures h)

end Operation

/-- The states that allowed operations lead to from `a`, whatever comes of them. A failed assertion
ends the program. -/
inductive Attains (allowed : Operation → Prop) (a : Assembler) : Assembler → Prop
  | refl : Attains allowed a a
  | perform {b : Assembler} (h : Attains allowed a b) {operation : Operation}
      (hop : allowed operation) (hsound : operation.violation? b = none) :
      Attains allowed a (operation.settle b)

theorem Attains.settleAll {allowed : Operation → Prop} {a b : Assembler} (h : Attains allowed a b)
    {operations : List Operation} (hops : ∀ operation ∈ operations, allowed operation)
    (hsound : Operation.soundAll operations b = true) :
    Attains allowed a (Operation.settleAll operations b) := by
  induction operations generalizing b with
  | nil => exact h
  | cons operation rest ih =>
    rw [Operation.soundAll, Bool.and_eq_true, Option.isNone_iff_eq_none] at hsound
    obtain ⟨hop, hrest⟩ := List.forall_mem_cons.mp hops
    exact ih (h.perform hop hsound.1) hrest hsound.2

/-- What no change takes away is never lost. -/
theorem Attains.of_change {allowed : Operation → Prop} {P : Assembler → Prop} {a b : Assembler}
    (hP : ∀ demand a a', P a → Assembler.Change demand a a' → P a') (h : Attains allowed a b)
    (ha : P a) : P b := by
  induction h with
  | refl => exact ha
  | perform _ _ hsound ih => exact Operation.of_change_settle hP ih hsound

end ForthAssembler
