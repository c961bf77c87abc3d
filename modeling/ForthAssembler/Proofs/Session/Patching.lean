import ForthAssembler.Proofs.Assembler.Patching
import ForthAssembler.Proofs.Session.Attains

/-! Operations that may compile outside of definitions. As long as nothing is forgotten while control
structures are open there, branches are filled in over their own placeholders only. -/
namespace ForthAssembler
open Assembler Instr Session

namespace Action

/-- What does what is demanded finds no branch lost, and loses none. -/
theorem Does.spares {α : Type} {x : Action α} {demand : Demand} {s a : Assembler}
    (hdoes : x.Does demand s a) (h : s.Placed) (htidy : demand.forgets → s.Tidy) :
    x.Yields (fun _ => Placed) (fun halt => Stops (· ≠ .siteAllocated) Placed halt) a := by
  apply Yields.mono hdoes
  · exact fun _ a' heffect => heffect.change.placed h htidy
  · rintro (e | assertion) a' hfailure
    · obtain rfl := hfailure.refused e rfl
      exact h
    · exact (hfailure.fault assertion rfl).ne_siteAllocated h

end Action

theorem Session.settles_placed : Settles (· ≠ .siteAllocated) Placed where
  abort := fun _ h => Action.does_abort.spares h False.elim
  finish := fun _ h => Action.does_finish.spares h False.elim

namespace Operation
variable {a : Assembler} {operation : Operation}

/-- The operation forgets no word while control structures are open outside of a definition, and no
word of a run does. -/
def Careful (a : Assembler) : Operation → Prop
  | forget _ => a.Tidy
  | feed _ => a.awaiting = .name .forget → a.Tidy
  | run input =>
    ∀ fed ∈ fedLines false (Text.lines input) a, fed.1.awaiting = .name .forget → fed.1.Tidy
  | _ => True

theorem awaiting_of_forgets {word : String} (h : (a.demand word).forgets) :
    a.awaiting = .name .forget := by
  unfold Assembler.demand at h
  split at h
  · rename_i use hawaiting
    rw [hawaiting]
    exact congrArg Awaiting.name h
  all_goals exact h.elim

theorem spares_feed (h : a.Placed) {word : String}
    (htidy : a.awaiting = .name .forget → a.Tidy) :
    (Action.feed word).Yields (fun _ => Placed)
      (fun halt => Stops (· ≠ .siteAllocated) Placed halt) a :=
  (Action.does_feed word).spares h fun hforgets => htidy (awaiting_of_forgets hforgets)

theorem spares_perform (h : a.Placed) (hop : operation.Careful a) :
    operation.perform.Yields (fun _ => Placed)
      (fun halt => Stops (· ≠ .siteAllocated) Placed halt) a := by
  cases operation with
  | run input =>
    rw [perform, Action.yields_map]
    exact settles_placed.yields_session
      (fun fed hfed hplaced => spares_feed hplaced (hop fed hfed)) h
  | feed word => exact (Action.yields_map _ _).mpr (spares_feed h hop)
  | forget name => exact (does_perform (by rintro _ ⟨⟩)).spares h fun _ => hop
  | _ => exact (does_perform (by rintro _ ⟨⟩)).spares h False.elim

end Operation

/-- The states that careful operations lead to from `a`, whatever comes of them. A failed assertion
ends the program. -/
inductive Carefully (a : Assembler) : Assembler → Prop
  | refl : Carefully a a
  | perform {b : Assembler} (h : Carefully a b) {operation : Operation}
      (hop : operation.Careful b) (hsound : operation.violation? b = none) :
      Carefully a (operation.settle b)

namespace Carefully
variable {a b : Assembler}

/-- What is refused leaves the placeholders as they are. -/
theorem placed (h : Carefully a b) (ha : a.Placed) : b.Placed := by
  induction h with
  | refl => exact ha
  | @perform b _ operation hop hsound ih =>
    obtain ⟨reply, c, hrun, hc⟩ | ⟨e | assertion, c, hrun, hc⟩ :=
      (Operation.spares_perform ih hop).run_cases
    · rwa [Operation.settle_of_ok hrun]
    · rwa [Operation.settle_of_error hrun]
    · simp [Operation.violation?, hrun] at hsound

/-- What a control word is about to overwrite is the placeholder that an open frame has left in the
image. If it is accepted nothing else of the image changes. No careful operation finds a branch that
is not allocated any more. -/
theorem patches {capacity : Capacity} {options : Options} {storage : Storage}
    (h : Carefully (.new capacity options storage) a) :
    (∀ word plan, Control.plan word a.here a.frames = .ok plan → ∀ patch ∈ plan.patches,
      ∃ instr, (patch.site, instr) ∈ a.frames.flatMap Frame.holes ∧ patch.site + 2 ≤ a.here ∧
        (a.dictionary.memory.allocated.drop patch.site).take 2 = instr.bytes) ∧
    (∀ word plan outcome a', Control.plan word a.here a.frames = .ok plan →
      (Action.control word).run a = .ok outcome a' → ∀ n < a.here,
        (∀ patch ∈ plan.patches, n < patch.site ∨ patch.site + 2 ≤ n) →
          a'.dictionary.memory.allocated[n]? = a.dictionary.memory.allocated[n]?) ∧
    ∀ operation : Operation, operation.Careful a →
      operation.violation? a ≠ some .siteAllocated := by
  have hplaced : a.Placed := h.placed (Frame.placed_nil _)
  have hlength : a.dictionary.memory.allocated.length = a.here := Memory.length_allocated _
  refine ⟨?_, ?_, ?_⟩
  · intro word plan hplan patch hpatch
    obtain ⟨target, closed, kept, opened, hpatches, hclosed, -, -⟩ := Control.plan_holes hplan
    rw [hpatches] at hpatch
    obtain ⟨site, hsite, rfl⟩ := List.mem_map.mp hpatch
    obtain ⟨hole, hhole, rfl⟩ := List.mem_map.mp hsite
    have hmem : hole ∈ a.frames.flatMap Frame.holes :=
      hclosed.mem_iff.mpr (List.mem_append_left _ hhole)
    exact ⟨hole.2, hmem, hlength ▸ hplaced.le_length hmem, hplaced.stands hole hmem⟩
  · intro word plan outcome a' hplan hrun
    exact ((Action.ensures_control hplaced word).of_ok hrun).2.2 plan hplan
  · intro operation hop hviolation
    unfold Operation.violation? at hviolation
    split at hviolation
    · rename_i hrun
      obtain rfl := Option.some.inj hviolation
      exact (Operation.spares_perform hplaced hop).of_error hrun rfl
    · cases hviolation

/-- `IF`, a variable and `THEN`, while no definition is open. -/
theorem patches_variable :
    let s : Assembler := .new ⟨32, by decide, by decide⟩ {} .empty
    let a := (Operation.defineVariable "V").settle
      ((Operation.compile (.compileWord .ifWord)).settle s)
    (a.dictionary.memory.allocated.drop 0).take 2 = (Instr.jumpZero 0).bytes ∧
      (Operation.compile (.compileWord .thenWord)).violation? a ≠ some .siteAllocated := by
  intro s a
  have hif : (Operation.compile (.compileWord .ifWord)).Careful s := trivial
  have hopen : Carefully s ((Operation.compile (.compileWord .ifWord)).settle s) :=
    .perform .refl hif (by decide +kernel)
  have hvariable : (Operation.defineVariable "V").Careful
      ((Operation.compile (.compileWord .ifWord)).settle s) := trivial
  have h : Carefully s a := .perform hopen hvariable (by decide +kernel)
  obtain ⟨hsites, -, hsound⟩ := h.patches
  have hplan : Control.plan .thenWord a.here a.frames = .ok ⟨[], [⟨0, a.here⟩], []⟩ := by
    decide +kernel
  obtain ⟨instr, hinstr, -, hstands⟩ := hsites .thenWord _ hplan ⟨0, a.here⟩ (by simp)
  have hframes : a.frames = [.cond 0] := by decide +kernel
  have hbranch : instr = .jumpZero 0 := by simpa [hframes, Frame.holes] using hinstr
  exact ⟨hbranch ▸ hstands, hsound _ trivial⟩

end Carefully

/-- Frames outside of a definition outlive a word that is forgotten below them. Then `THEN` finds no
branch to fill in, or takes the name of the next word for one. -/
theorem Operation.patches_forgotten :
    let a := fun name => settleAll [.defineConstant "A" 1, .compile (.compileWord .ifWord),
      .forget "A", .defineConstant name 1] (.new ⟨32, by decide, by decide⟩ {} .empty)
    let thenWord : Operation := .compile (.compileWord .thenWord)
    thenWord.violation? (a "BB") = some .siteAllocated ∧
      (a "LONGNAME").dictionary.words = ["LONGNAME"] ∧
      (thenWord.settle (a "LONGNAME")).dictionary.words = ["LONGN@\x0fE"] := by
  decide +kernel

end ForthAssembler
