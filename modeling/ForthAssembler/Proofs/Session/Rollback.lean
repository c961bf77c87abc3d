import ForthAssembler.Proofs.Session.Unfailing
import Mathlib.Data.List.Infix

/-! An open definition can be dropped without a trace, whatever was fed to it. -/
namespace ForthAssembler
open Text

namespace Operation

/-- The state after some words of input, whatever comes of each. -/
def fed (words : List String) (a : Assembler) : Assembler :=
  words.foldl (fun a word => (feed word).settle a) a

end Operation
open Operation

namespace Assembler

/-- A definition has been opened since `s`, and nothing else is different. -/
structure Writes (s : Assembler) (name : String) (a : Assembler) : Prop extends Retains s a where
  defines : ∃ draft, Defines id s.dictionary.memory.allocated s.dictionary.head name draft a

/-- Nothing is left of what has happened since `s`, except behind the cursor. -/
structure Restored (s a : Assembler) : Prop extends Retains s a where
  allocated : a.dictionary.memory.allocated = s.dictionary.memory.allocated
  here : a.here = s.here
  head : a.dictionary.head = s.dictionary.head
  definition : a.definition = none
  mode : a.mode = .interpret
  frames : a.frames = []
  awaiting : a.awaiting = .nothing

variable {s a : Assembler} {name : String}

/-- A word changes nothing but the definition, as long as it does not close it. -/
theorem Writes.settle (h : Writes s name a) (word : String)
    (hopen : ((feed word).settle a).definition.isSome) :
    Writes s name ((feed word).settle a) ∧ (feed word).violation? a = none := by
  obtain ⟨draft, hdefines⟩ := h.defines
  have hfeed : (feed word).perform.Ensures
      (fun _ a' => a'.definition.isSome → Writes s name a')
      (fun _ a' => a'.definition.isSome → Writes s name a') a := by
    rw [perform, Action.ensures_map]
    apply (Action.ensures_feed_opened hdefines word).mono
    · intro _ a' hcontinues hopen
      refine ⟨h.toRetains.trans hcontinues.toRetains, ?_⟩
      obtain hdefines' | ⟨-, -, -, body, hadded⟩ := hcontinues.outcome
      · exact hdefines'
      · simp [hadded.definition] at hopen
    · rintro _ a' rfl _
      exact ⟨⟨h.size, h.options, h.literals, h.storage⟩, draft, hdefines.await .nothing⟩
  exact ⟨of_ensures_settle hfeed hopen, violation?_of_ensures hfeed⟩

/-- By induction on the words. -/
theorem Writes.fed (h : Writes s name a) {words : List String}
    (hopen : ∀ front ∈ words.inits, (Operation.fed front a).definition.isSome) :
    Writes s name (Operation.fed words a) ∧ ∀ front word rest, words = front ++ word :: rest →
      (feed word).violation? (Operation.fed front a) = none := by
  induction words generalizing a with
  | nil => exact ⟨h, fun _ _ _ heq => by simp at heq⟩
  | cons word words ih =>
    obtain ⟨ha', hsound⟩ := h.settle word (hopen [word] (by simp))
    obtain ⟨hlast, hrest⟩ := ih ha' fun front hfront => hopen (word :: front) (by simp_all)
    refine ⟨hlast, fun front next rest heq => ?_⟩
    cases front with
    | nil =>
      cases heq
      exact hsound
    | cons first front =>
      cases heq
      exact hrest front next rest rfl

theorem Writes.ensures_abort (h : Writes s name a) (hhead : ∀ n ∈ s.dictionary.head, n < s.here) :
    Action.abort.Ensures (fun _ a' => Restored s a') (fun _ _ => False) a := by
  obtain ⟨draft, hdefines⟩ := h.defines
  have hlink : ∀ n ∈ s.dictionary.head, n < s.dictionary.memory.allocated.length := by
    rwa [Memory.length_allocated]
  apply (Action.ensures_abort hdefines hlink).imp
  intro _ a' habort
  obtain ⟨halloc, hhead, hclosed, hmode, hframes, hawaiting, hsize, hoptions, hliterals,
    hstorage⟩ := habort
  refine ⟨h.toRetains.trans ⟨hsize, hoptions, hliterals, hstorage⟩, halloc, ?_, hhead, hclosed,
    hmode, hframes, hawaiting⟩
  rw [here, Dictionary.here, ← Memory.length_allocated, halloc, Memory.length_allocated]
  rfl

end Assembler

/-- A definition that is opened, and that some words do not close, can be dropped without a trace.
None of the words fails an assertion, whatever comes of it, and neither does the abort. -/
theorem Attains.restored_of_abort {capacity : Capacity} {options : Options} {storage : Storage}
    {s a : Assembler} (h : Attains Regular (.new capacity options storage) s) {name : String}
    {reply : Reply} (hdefine : (define name).perform.run s = .ok reply a) {words : List String}
    (hopen : ∀ front ∈ words.inits, (fed front a).definition.isSome) :
    (∀ front word rest, words = front ++ word :: rest →
      (feed word).violation? (fed front a) = none) ∧
    ∃ b, Action.abort.run (fed words a) = .ok () b ∧ s.Restored b := by
  have hsafe := h.safe (.new capacity options storage)
  rw [Operation.perform] at hdefine
  obtain ⟨address, -, -, -, hkeeps, hdefines⟩ :=
    (Action.ensures_define id name).of_map_ok hdefine
  have ha : s.Writes name a := ⟨hkeeps.retains, _, hdefines⟩
  obtain ⟨hlast, hsound⟩ := ha.fed hopen
  obtain ⟨_, b, hrun, hb⟩ := (hlast.ensures_abort hsafe.head).exists_run
  exact ⟨hsound, b, hrun, hb⟩

/-- `1 IF THEN THEN`, of which the last word is refused. -/
theorem Attains.restored_of_abort_then :
    let s : Assembler := .new ⟨64, by decide, by decide⟩ {} .empty
    let a := (define "A").settle s
    ∃ b, Action.abort.run (fed ["1", "IF", "THEN", "THEN"] a) = .ok () b ∧ s.Restored b := by
  intro s a
  have hdefine : (define "A").perform.run s = .ok (.number 0) a := rfl
  exact (Attains.restored_of_abort .refl hdefine (by decide +kernel)).2

end ForthAssembler
