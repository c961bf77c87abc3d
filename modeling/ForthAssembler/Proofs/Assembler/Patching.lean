import ForthAssembler.Proofs.Assembler.Change
import ForthAssembler.Proofs.Control.Placed

/-! What becomes of the placeholders of open branches, also of those that are compiled while no
definition is open. -/
namespace ForthAssembler
open Instr

namespace Assembler

/-- The placeholders of all open branches stand in the image, apart from each other. -/
abbrev Placed (a : Assembler) : Prop := Frame.Placed a.dictionary.memory.allocated a.frames

/-- No control structure is open while no definition is. -/
def Tidy (a : Assembler) : Prop := a.definition = none → a.frames = []

variable {a a' : Assembler}

theorem placed_of_frames_eq_nil (h : a.frames = []) : a.Placed := by
  rw [Placed, h]
  exact Frame.placed_nil _

/-- Bytes may be appended. -/
theorem Placed.append (h : a.Placed) (hframes : a'.frames = a.frames) {rest : List UInt8}
    (halloc : a'.dictionary.memory.allocated = a.dictionary.memory.allocated ++ rest) :
    a'.Placed := by
  rw [Placed, hframes, halloc]
  exact Frame.Placed.append h rest

end Assembler

namespace Action
open Assembler
variable {α : Type} {a : Assembler}

/-- What is emitted is appended, once all branches at the sites go to the target, and the outcome
is the range of what was appended. -/
theorem ensures_emit_toward (code : List Instr) (target : Nat) {sites : List Nat}
    (hsites : ∀ site ∈ sites, site + 2 ≤ a.here) :
    (emit code (Control.toward target sites)).Ensures
      (fun outcome a' => a'.frames = a.frames ∧ a'.definition = a.definition ∧
        a'.dictionary.memory.allocated =
          sites.foldl (redirect a.dictionary.memory.allocated target)
            a.dictionary.memory.allocated ++ bytesAll code ∧
        outcome = .compiled a.here a'.here ∧ ∀ i ∈ code, i.Encodable)
      (fun _ _ => True) a := by
  simp only [emit, commit, ensures_bind, ensures_ofExcept, ensures_get, ensures_ofHalting,
    ensures_setDictionary, ensures_pure, encodeAll_eq_ok_iff, implies_true, and_true]
  rintro _ ⟨hencodable, rfl⟩
  by_cases hspace : (bytesAll code).length ≤ a.dictionary.memory.unused
  · by_cases hreach : sites ≠ [] → target ≤ maxTarget
    · obtain ⟨m, hcommit, -, halloc⟩ := Memory.commit_toward hsites hspace hreach
      rw [hcommit]
      refine ⟨?_, by simp⟩
      rintro _ ⟨⟩
      exact ⟨trivial, trivial, halloc, rfl, hencodable⟩
    · obtain ⟨hne, hlt⟩ := Classical.not_imp.mp hreach
      obtain ⟨e, he⟩ := @Memory.commit_toward_of_lt a.dictionary.memory (bytesAll code) target
        sites hne (Nat.lt_of_not_le hlt)
      rw [he]
      simp
  · rw [Memory.commit_toward_of_unused_lt _ (Nat.lt_of_not_le hspace)]
    simp

/-- A control word that is accepted overwrites placeholders of its own structures, and nothing else
of what is allocated. -/
theorem ensures_control (h : a.Placed) (word : Control) :
    (control word).Ensures
      (fun _ a' => a'.Placed ∧ a'.definition = a.definition ∧ ∀ plan,
        word.plan a.here a.frames = .ok plan → ∀ n < a.here,
          (∀ patch ∈ plan.patches, n < patch.site ∨ patch.site + 2 ≤ n) →
            a'.dictionary.memory.allocated[n]? = a.dictionary.memory.allocated[n]?)
      (fun _ _ => True) a := by
  have hlength : a.dictionary.memory.allocated.length = a.here := Memory.length_allocated _
  simp only [control, ensures_bind, ensures_get, ensures_ofExcept, implies_true, and_true]
  intro plan hplan
  obtain ⟨target, closed, kept, opened, hpatches, hclosed, hafter, hopened⟩ :=
    Control.plan_holes hplan
  have hsites : ∀ site ∈ closed.map Prod.fst, site + 2 ≤ a.dictionary.memory.allocated.length :=
    Frame.sites_le hclosed fun _ hmem => h.le_length hmem
  rw [hpatches]
  apply (ensures_emit_toward plan.code target (by rwa [← hlength])).imp
  intro _ a' hpost
  obtain ⟨-, hdefinition, halloc, -⟩ := hpost
  simp only [ensures_bind, ensures_setFrames, ensures_pure]
  refine ⟨?_, hdefinition, ?_⟩
  · rw [Placed, halloc]
    rw [← hlength] at hopened
    exact h.fill hclosed hafter hopened _ _
  · intro plan' hplan' n hn hfar
    obtain rfl := Except.ok.inj (hplan.symm.trans hplan')
    rw [halloc, List.getElem?_append_left (by rwa [length_foldl_redirect hsites, hlength])]
    refine getElem?_foldl_redirect hsites fun site hsite => ?_
    refine hfar ⟨site, target⟩ ?_
    rw [hpatches]
    exact List.mem_map_of_mem hsite

/-- A word of a body that is compiled where all placeholders stand finds its branches allocated. -/
theorem ensures_action_placed (h : a.Placed) (word : Symbol Instr) :
    (word.action id).Ensures (fun _ a' => a'.Placed) (fun _ _ => True) a := by
  cases word with
  | plain instr =>
    apply (@ensures_emit_toward a [instr] 0 [] (by simp)).imp
    rintro _ a' ⟨hframes, -, halloc, -⟩
    exact h.append hframes halloc
  | begin =>
    simp only [Symbol.action, openLoop, ensures_bind, ensures_get, ensures_ite, ensures_refuse,
      ensures_setFrames, ensures_pure, implies_true, true_and]
    exact fun _ => ⟨h.stands, h.apart⟩
  | control word => exact (ensures_control h word).imp fun _ _ hpost => hpost.1

end Action

namespace Assembler
variable {a a' : Assembler} {demand : Demand}

/-- Placeholders are lost only if a word is forgotten while branches are open outside of a
definition. By cases on the change: either no frames are left, or bytes are appended, or a word of a
body fills in its own placeholders. -/
theorem Change.placed (hchange : Change demand a a') (h : a.Placed)
    (htidy : demand.forgets → a.Tidy) : a'.Placed := by
  cases hchange with
  | beside => exact h
  | configured => exact h
  | stored => exact h
  | compiled _ run => exact (Action.ensures_action_placed h _).of_ok run
  | opened => exact placed_of_frames_eq_nil rfl
  | closed _ _ balanced run =>
    have hframes := ((Action.yields_emit [.ret] []).of_ok run).2.1
    exact placed_of_frames_eq_nil (hframes.trans balanced)
  | dropped => exact placed_of_frames_eq_nil rfl
  | cleared => exact placed_of_frames_eq_nil rfl
  | added acquires =>
    obtain ⟨body, hadded⟩ := acquires.added
    exact h.append acquires.frames (hadded.allocated.trans (List.append_assoc _ _ _))
  | forgotten forgets isClosed => exact placed_of_frames_eq_nil (htidy forgets isClosed)
  | loaded => exact placed_of_frames_eq_nil rfl

/-- Where all placeholders stand no branch is found to be lost. -/
theorem Fault.ne_siteAllocated {assertion : Assertion} (hfault : Fault demand a assertion)
    (h : a.Placed) : assertion ≠ .siteAllocated := by
  rintro rfl
  cases hfault with
  | compiling _ _ run => exact (Action.ensures_action_placed h _).not_violated _ _ run
  | closing _ _ _ _ reveal => exact Dictionary.reveal_ne_siteAllocated _ reveal
  | dropping _ truncate => exact Dictionary.truncate_ne_siteAllocated _ _ _ truncate
  | forgetting _ _ forget => exact Dictionary.forget_ne_siteAllocated _ _ _ forget

end Assembler
end ForthAssembler
