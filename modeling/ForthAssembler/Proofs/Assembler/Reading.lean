import ForthAssembler.Proofs.Assembler.Defining
import ForthAssembler.Session.Operation

/-! Compiling the words of a body one after another. -/
namespace ForthAssembler
open Instr Text

variable {α : Type}

namespace Operation

/-- Performs operations in order, up to the first that fails. -/
def performAll : List Operation → Action Unit
  | [] => return ()
  | operation :: rest => do
    let _ ← operation.perform
    performAll rest

theorem run_performAll_cons {operation : Operation} {rest : List Operation} {a b : Assembler}
    {reply : Reply} (h : operation.perform.run a = .ok reply b) :
    (performAll (operation :: rest)).run a = (performAll rest).run b := by
  simp only [EStateM.run] at h
  simp only [performAll, EStateM.run, bind, EStateM.bind, h]

theorem run_performAll_append {operations later : List Operation} {a b : Assembler}
    (h : (performAll operations).run a = .ok () b) :
    (performAll (operations ++ later)).run a = (performAll later).run b := by
  induction operations generalizing a with
  | nil =>
    cases h
    rfl
  | cons operation rest ih =>
    cases hop : operation.perform.run a with
    | ok reply c =>
      rw [run_performAll_cons hop] at h
      rw [List.cons_append, run_performAll_cons hop, ih h]
    | error e c =>
      simp only [EStateM.run] at hop h
      simp [performAll, bind, EStateM.bind, hop] at h

theorem run_performAll_error {operation : Operation} {rest : List Operation} {a b : Assembler}
    {e : Halt} (h : operation.perform.run a = .error e b) :
    (performAll (operation :: rest)).run a = .error e b := by
  simp only [EStateM.run] at h
  simp only [performAll, EStateM.run, bind, EStateM.bind, h]

theorem run_map_ok {f : α → Reply} {x : Action α} {v : α} {a b : Assembler}
    (h : x.run a = .ok v b) : (f <$> x).run a = .ok (f v) b := by
  rw [Action.run_map, h]

theorem run_map_error {f : α → Reply} {x : Action α} {e : Halt} {a b : Assembler}
    (h : x.run a = .error e b) : (f <$> x).run a = .error e b := by
  rw [Action.run_map, h]

end Operation

namespace Control

/-- How a control word is handed to the compiler. -/
def token : Control → Token
  | ifWord => .compileWord .ifWord
  | elseWord => .compileWord .elseWord
  | thenWord => .compileWord .thenWord
  | untilWord => .compileWord .untilWord
  | againWord => .compileWord .againWord
  | whileWord => .compileWord .whileWord
  | repeatWord => .compileWord .repeatWord
  | forWord => .extended Extended.forLoop.id
  | nextWord => .extended Extended.next.id
  | breakWord => .extended Extended.leave.id

theorem compile_token (word : Control) : Action.compile word.token = Action.control word := by
  cases word <;> rfl

end Control

/-- How the words of bodies are handed over, if it is known for plain ones. -/
def Symbol.operations (plain : α → List Operation) : Symbol α → List Operation
  | .plain item => plain item
  | .begin => [.compile (.compileWord .beginWord)]
  | .control word => [.compile word.token]

namespace Assembler
variable {instr : α → Instr} {older : List UInt8} {a : Assembler}

/-- Words that lead from one draft to another are all accepted, as long as there is space. -/
theorem Compiles.run_operations (plain : α → List Operation) {draft after : Draft.Any α}
    {words : List (Symbol α)} (h : Compiles instr older draft a)
    (hread : Draft.read draft words = some after)
    (hspace : older.length + after.2.size instr < a.dictionary.memory.size)
    (hplain : ∀ item, .plain item ∈ words → (instr item).Encodable ∧ ∀ b outcome b', Extends a b →
      (Action.emit [instr item] []).run b = .ok outcome b' →
        (Operation.performAll (plain item)).run b = .ok () b') :
    ∃ a', (Operation.performAll (words.flatMap (·.operations plain))).run a = .ok () a' ∧
      Compiles instr older after a' ∧ Extends a a' := by
  induction words generalizing draft a with
  | nil =>
    cases hread
    exact ⟨a, rfl, h, .refl a⟩
  | cons word rest ih =>
    obtain ⟨middle, hnext, hrest⟩ := Draft.read_cons_eq_some_iff.mp hread
    have hmiddle : middle.2.size instr ≤ after.2.size instr := by
      rw [Draft.size_read instr hrest]
      exact Nat.le_add_right _ _
    obtain ⟨outcome, b, hrun, hb, hext⟩ := h.run_action
      (fun item hitem => (hplain item (hitem ▸ List.mem_cons_self)).1) hnext (by omega)
    have hword : (Operation.performAll (word.operations plain)).run a = .ok () b := by
      cases word with
      | plain item =>
        exact (hplain item List.mem_cons_self).2 a outcome b (.refl a) hrun
      | begin => exact Operation.run_performAll_cons (Operation.run_map_ok hrun)
      | control word =>
        have hcompile : (Action.compile word.token).run a = .ok outcome b := by
          rw [Control.compile_token]
          exact hrun
        exact Operation.run_performAll_cons (Operation.run_map_ok hcompile)
    obtain ⟨a', hrun', ha', hext'⟩ := ih hb hrest (by rw [hext.size]; exact hspace)
      fun item hitem => ⟨(hplain item (List.mem_cons_of_mem _ hitem)).1, fun c outcome c' hc =>
        (hplain item (List.mem_cons_of_mem _ hitem)).2 c outcome c' (hext.trans hc)⟩
    refine ⟨a', ?_, ha', hext.trans hext'⟩
    rw [List.flatMap_cons, Operation.run_performAll_append hword, hrun']

end Assembler
end ForthAssembler
