import ForthAssembler.Assembler.Compile
import ForthAssembler.Proofs.Assembler.Contract
import ForthAssembler.Proofs.Control.Advance
import ForthAssembler.Proofs.Control.Grammar

/-! Compiling a word moves the code on from one draft to the next. -/
namespace ForthAssembler
open Instr

variable {α : Type}

namespace Assembler

/-- The code behind the bytes `older` is that of a draft, and so are the frames. -/
structure Compiles (instr : α → Instr) (older : List UInt8) (draft : Draft.Any α) (a : Assembler) :
    Prop where
  allocated : a.dictionary.memory.allocated =
    older ++ bytesAll (draft.2.layout instr older.length)
  frames : a.frames = draft.2.frames instr older.length

/-- What stands beside the words, the frames and the definition is the same. -/
structure Keeps (a a' : Assembler) : Prop where
  size : a'.dictionary.memory.size = a.dictionary.memory.size
  options : a'.options = a.options
  awaiting : a'.awaiting = a.awaiting
  literals : a'.literals = a.literals
  storage : a'.storage = a.storage

/-- Nothing but the code and the frames differs. -/
structure Extends (a a' : Assembler) : Prop extends Keeps a a' where
  head : a'.dictionary.head = a.dictionary.head
  definition : a'.definition = a.definition
  mode : a'.mode = a.mode

theorem Keeps.refl (a : Assembler) : Keeps a a := ⟨rfl, rfl, rfl, rfl, rfl⟩

theorem Keeps.trans {a b c : Assembler} (h : Keeps a b) (h' : Keeps b c) : Keeps a c :=
  ⟨h'.size.trans h.size, h'.options.trans h.options, h'.awaiting.trans h.awaiting,
    h'.literals.trans h.literals, h'.storage.trans h.storage⟩

theorem Extends.refl (a : Assembler) : Extends a a := ⟨.refl a, rfl, rfl, rfl⟩

theorem Extends.trans {a b c : Assembler} (h : Extends a b) (h' : Extends b c) : Extends a c :=
  ⟨h.toKeeps.trans h'.toKeeps, h'.head.trans h.head, h'.definition.trans h.definition,
    h'.mode.trans h.mode⟩

theorem Compiles.here_eq {instr : α → Instr} {older : List UInt8} {draft : Draft.Any α}
    {a : Assembler} (h : Compiles instr older draft a) :
    a.dictionary.memory.here = older.length + draft.2.size instr := by
  rw [← Memory.length_allocated, h.allocated]
  simp

end Assembler

/-- What is done for a word while a definition is open. -/
def Symbol.action (instr : α → Instr) : Symbol α → Action Outcome
  | .plain item => Action.emit [instr item] []
  | .begin => Action.openLoop
  | .control word => Action.control word

/-- The instruction that the word stands for, if any, has a code. -/
def Symbol.Encodable (instr : α → Instr) (word : Symbol α) : Prop :=
  ∀ item, word = .plain item → (instr item).Encodable

namespace Action
open Assembler
variable {a : Assembler}

/-- Code that fits is appended, and open branches of the code `old` go to its end. Otherwise nothing
is changed. -/
theorem ensures_emit (code : List Instr) (target : Nat) {older : List UInt8} {old new : List Instr}
    {sites : List Nat} (ha : a.dictionary.memory.allocated = older ++ bytesAll old)
    (h : Resolves older.length sites target old new)
    (htarget : older.length + sizeAll (new ++ code) = target) :
    (emit code (Control.toward target sites)).Ensures
      (fun _ a' => Extends a a' ∧ a'.frames = a.frames ∧ (∀ i ∈ code, i.Encodable) ∧
        a'.dictionary.memory.allocated = older ++ bytesAll (new ++ code))
      (fun _ a' => a' = a ∧ (a.dictionary.memory.size < target ∨
        (sites ≠ [] ∧ maxTarget < target) ∨ ¬ ∀ i ∈ code, i.Encodable)) a := by
  have hhere : a.dictionary.memory.here + a.dictionary.memory.unused = a.dictionary.memory.size :=
    Memory.here_add_unused _
  have hold : a.dictionary.memory.here = older.length + sizeAll old := by
    rw [← Memory.length_allocated, ha]
    simp
  have hnew := h.size
  rw [sizeAll_append] at htarget
  simp only [emit, commit, ensures_bind, ensures_ofExcept, ensures_get, ensures_ofHalting,
    ensures_setDictionary, ensures_pure, encodeAll_eq_ok_iff]
  constructor
  · intro _ hpost
    obtain ⟨hall, rfl⟩ := hpost
    by_cases hspace : sizeAll code ≤ a.dictionary.memory.unused
    · by_cases hreach : sites ≠ [] → target ≤ maxTarget
      · obtain ⟨m, hcommit, hsize, halloc⟩ := Memory.commit_resolves ha h hspace hreach
        rw [hcommit]
        refine ⟨?_, by simp, by simp⟩
        intro _ heq
        cases heq
        exact ⟨⟨⟨hsize, rfl, rfl, rfl, rfl⟩, rfl, rfl, rfl⟩, trivial, hall, halloc⟩
      · obtain ⟨hsites, hlt⟩ := Classical.not_imp.mp hreach
        have hrefused : ∃ e, a.dictionary.memory.commit (bytesAll code)
            (Control.toward target sites) = .error (.refused e) :=
          Memory.commit_toward_of_lt hsites (Nat.lt_of_not_le hlt)
        obtain ⟨e, he⟩ := hrefused
        rw [he]
        exact ⟨by simp, fun _ _ => ⟨trivial, .inr (.inl ⟨hsites, Nat.lt_of_not_le hlt⟩)⟩, by simp⟩
    · rw [Memory.commit_toward_of_unused_lt _ (by simpa using hspace)]
      exact ⟨by simp, fun _ _ => ⟨trivial, .inl (by omega)⟩, by simp⟩
  · intro e he
    have hnot : ¬ ∀ i ∈ code, i.Encodable := fun hall => by
      simp [encodeAll_eq_ok_iff.mpr ⟨hall, rfl⟩] at he
    exact ⟨trivial, .inr (.inr hnot)⟩

/-- The next draft follows if the word may stand there and its code fits; otherwise nothing is
changed. -/
theorem ensures_action {instr : α → Instr} {older : List UInt8} {draft : Draft.Any α}
    (h : Compiles instr older draft a) (word : Symbol α) :
    (word.action instr).Ensures
      (fun _ a' => ∃ after, draft.2.next word = some after ∧ Compiles instr older after a' ∧
        Extends a a' ∧ word.Encodable instr)
      (fun e a' => a' = a ∧
        ((draft.2.next word = none ∧ ∃ control, word = .control control ∧
          e = .unbalanced control.name) ∨ ¬ word.Encodable instr ∨
        ∃ after, draft.2.next word = some after ∧
          a.dictionary.memory.size ≤ older.length + after.2.size instr)) a := by
  obtain ⟨k, d⟩ := draft
  have hlimit : a.dictionary.memory.size ≤ maxTarget + 1 := a.dictionary.memory.size_le
  cases word with
  | plain item =>
    have hemit := ensures_emit [instr item]
      (older.length + (d.append (.plain item .empty)).size instr) h.allocated (.nil _ _ _)
      (by simp [Body.size])
    apply hemit.mono
    · intro _ a' hpost
      obtain ⟨hext, hframes, hcode, halloc⟩ := hpost
      refine ⟨_, rfl, ⟨?_, ?_⟩, hext, by simpa [Symbol.Encodable] using hcode⟩
      · rw [halloc, Draft.layout_append]
        rfl
      · rw [hframes, h.frames, Draft.frames_append]
        simp [Body.sites]
    · rintro e a' ⟨rfl, hsize | ⟨hsites, -⟩ | hcode⟩
      · exact ⟨rfl, .inr (.inr ⟨_, rfl, Nat.le_of_lt hsize⟩)⟩
      · exact absurd rfl hsites
      · exact ⟨rfl, .inr (.inl (by simpa [Symbol.Encodable] using hcode))⟩
  | begin =>
    have hhere : a.here = older.length + d.size instr := h.here_eq
    simp only [Symbol.action, openLoop, ensures_bind, ensures_get, ensures_ite, ensures_refuse,
      ensures_setFrames, ensures_pure]
    refine ⟨fun hlt => ⟨trivial, .inr (.inr ⟨_, rfl, ?_⟩)⟩, fun _ => ⟨_, rfl, ⟨?_, ?_⟩, ?_, ?_⟩⟩
    · simp only [Draft.size, Body.size]
      omega
    · simpa [Draft.layout, Body.layout] using h.allocated
    · simp [Draft.frames, Body.sites, h.frames, hhere]
    · exact ⟨⟨rfl, rfl, rfl, rfl, rfl⟩, rfl, rfl, rfl⟩
    · simp [Symbol.Encodable]
  | control word =>
    have hhere : a.here = older.length + d.size instr := h.here_eq
    simp only [Symbol.action, control, ensures_bind, ensures_get, ensures_ofExcept,
      h.frames, hhere]
    cases hnext : d.next (.control word) with
    | none =>
      rw [Draft.plan_eq_error instr _ _ d hnext]
      exact ⟨by simp, fun _ he => ⟨trivial, .inl ⟨rfl, word, rfl, (Except.error.inj he).symm⟩⟩⟩
    | some after =>
      obtain ⟨plan, hplan, hadv⟩ := Draft.plan_eq_ok instr older.length hnext
      obtain ⟨sites, new, hpatches, hres, hlayout⟩ := hadv.resolves
      rw [hplan]
      refine ⟨?_, by simp⟩
      intro _ heq
      cases heq
      rw [hpatches]
      have htarget : older.length + sizeAll (new ++ plan.code) =
          older.length + after.2.size instr := by
        rw [← hlayout, Draft.sizeAll_layout]
      apply (ensures_emit _ _ h.allocated hres htarget).mono
      · intro _ a' hpost
        obtain ⟨hext, -, -, halloc⟩ := hpost
        refine ⟨after, rfl, ⟨?_, hadv.frames⟩, ?_, by simp [Symbol.Encodable]⟩
        · rw [hlayout]
          exact halloc
        · exact ⟨⟨hext.size, hext.options, hext.awaiting, hext.literals, hext.storage⟩, hext.head,
            hext.definition, hext.mode⟩
      · intro e a' hpost
        obtain ⟨rfl, hcase⟩ := hpost
        have hsize : a'.dictionary.memory.size ≤ older.length + after.2.size instr := by
          rcases hcase with hlt | ⟨-, hlt⟩ | hcode
          · omega
          · omega
          · have := mt hadv.encodable hcode
            omega
        exact ⟨rfl, .inr (.inr ⟨after, rfl, hsize⟩)⟩

end Action

namespace Assembler
variable {instr : α → Instr} {older : List UInt8} {draft : Draft.Any α} {a : Assembler}
  {word : Symbol α}

theorem Compiles.run_action (h : Compiles instr older draft a)
    (hword : word.Encodable instr) {after : Draft.Any α}
    (hnext : draft.2.next word = some after)
    (hspace : older.length + after.2.size instr < a.dictionary.memory.size) :
    ∃ outcome a', (word.action instr).run a = .ok outcome a' ∧ Compiles instr older after a' ∧
      Extends a a' := by
  have haction : (word.action instr).Ensures
      (fun _ a' => ∃ next, draft.2.next word = some next ∧ Compiles instr older next a' ∧
        Extends a a') (fun _ _ => False) a := by
    apply (Action.ensures_action h word).mono
    · intro _ a' hpost
      obtain ⟨next, hnext', ha', hext, -⟩ := hpost
      exact ⟨next, hnext', ha', hext⟩
    rintro e a' ⟨-, ⟨hnone, -⟩ | hnot | ⟨next, hnext', hsize⟩⟩
    · simp [hnext] at hnone
    · exact hnot hword
    · obtain rfl := Option.some.inj (hnext.symm.trans hnext')
      omega
  obtain ⟨outcome, a', hrun, next, hnext', ha'⟩ := haction.exists_run
  obtain rfl := Option.some.inj (hnext.symm.trans hnext')
  exact ⟨outcome, a', hrun, ha'⟩

/-- A word that may not stand at the end of the draft is refused, whatever the space. -/
theorem Compiles.run_action_eq_error (h : Compiles instr older draft a)
    (hnext : draft.2.next word = none) :
    ∃ control, word = .control control ∧
      (word.action instr).run a = .error (.refused (.unbalanced control.name)) a := by
  cases word with
  | plain item => simp [Draft.next] at hnext
  | begin => simp [Draft.next] at hnext
  | control word =>
    have haction := Action.ensures_action h (.control word)
    refine ⟨word, rfl, ?_⟩
    unfold Action.Ensures at haction
    split at haction
    · obtain ⟨after, hnext', -⟩ := haction
      simp [hnext] at hnext'
    · obtain ⟨rfl, ⟨-, control, hcontrol, rfl⟩ | hnot | ⟨after, hnext', -⟩⟩ := haction
      · cases hcontrol
        assumption
      · simp [Symbol.Encodable] at hnot
      · simp [hnext] at hnext'
    · exact haction.elim

end Assembler
end ForthAssembler
