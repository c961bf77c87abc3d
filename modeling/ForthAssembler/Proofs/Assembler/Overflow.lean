import ForthAssembler.Proofs.Assembler.Change
import ForthAssembler.Proofs.Assembler.Emission

/-! A branch is out of reach only at the very end of a buffer of the largest size. -/
namespace ForthAssembler
open Instr Text

/-- An offset that is out of reach is the end of the buffer, and no buffer is larger. Other errors
do not matter. -/
def Error.AtEnd (size : Nat) : Error → Prop
  | addressOverflow address => size = maxCapacity ∧ address = maxCapacity
  | _ => True

theorem Error.atEnd_of_not_outOfReach {e : Error} (h : ¬ e.OutOfReach) (size : Nat) :
    e.AtEnd size := by
  cases e with
  | addressOverflow address => exact absurd trivial h
  | _ => trivial

/-- What fails on a list fails on one of its members. -/
theorem exists_of_mapM_eq_error {α β ε : Type} {f : α → Except ε β} {l : List α} {e : ε}
    (h : l.mapM f = .error e) : ∃ x ∈ l, f x = .error e := by
  induction l with
  | nil => cases h
  | cons x l ih =>
    rw [List.mapM_cons] at h
    cases hx : f x with
    | error e' =>
      rw [hx] at h
      cases h
      exact ⟨x, List.mem_cons_self, hx⟩
    | ok y =>
      rw [hx] at h
      cases hl : l.mapM f with
      | ok ys =>
        rw [hl] at h
        cases h
      | error e' =>
        rw [hl] at h
        cases h
        obtain ⟨z, hz, hfz⟩ := ih hl
        exact ⟨z, List.mem_cons_of_mem _ hz, hfz⟩

namespace Instr
variable {limit size : Nat} {e : Error}

/-- The instruction goes to no offset behind a limit. -/
def Within (limit : Nat) (i : Instr) : Prop := ∀ target ∈ i.target?, target ≤ limit

theorem atEnd_of_branchWord {opcode : UInt8} {target : Nat} (hsize : size ≤ maxCapacity)
    (htarget : target ≤ size) (h : branchWord opcode target = .error e) : e.AtEnd size := by
  unfold branchWord at h
  split at h
  · cases h
  · cases h
    simp only [Error.AtEnd, maxCapacity] at *
    omega

theorem atEnd_of_encode {i : Instr} (hsize : size ≤ maxCapacity) (hi : i.Within size)
    (h : i.encode = .error e) : e.AtEnd size := by
  have hbranch {opcode : UInt8} {target : Nat} (htarget : target ≤ size)
      (h : Cell.bytes <$> branchWord opcode target = .error e) : e.AtEnd size := by
    cases hword : branchWord opcode target with
    | ok word => rw [hword] at h; cases h
    | error e' =>
      rw [hword] at h
      cases h
      exact atEnd_of_branchWord hsize htarget hword
  cases i with
  | call target | jumpZero target | jump target => exact hbranch (hi target rfl) h
  | primitive id | short value | text bytes =>
    simp only [encode] at h
    split at h
    · cases h
    · cases h
      trivial
  | _ => cases h

theorem atEnd_of_encodeAll {code : List Instr} (hsize : size ≤ maxCapacity)
    (hcode : ∀ i ∈ code, i.Within size) (h : encodeAll code = .error e) : e.AtEnd size := by
  cases hmap : code.mapM encode with
  | ok parts =>
    rw [encodeAll, hmap] at h
    cases h
  | error e' =>
    rw [encodeAll, hmap] at h
    cases h
    obtain ⟨i, hi, he⟩ := exists_of_mapM_eq_error hmap
    exact atEnd_of_encode hsize (hcode i hi) he

end Instr

/-- Patches of allocated sites to offsets up to the end of the code are refused only there. -/
theorem Memory.atEnd_of_commit {m : Memory} {code : List UInt8} {patches : List Patch} {e : Error}
    (hpatches : ∀ patch ∈ patches, patch.site < m.here ∧ patch.target ≤ m.here + code.length)
    (h : m.commit code patches = .error (.refused e)) : e.AtEnd m.size := by
  unfold commit at h
  split at h
  · cases h
    trivial
  · rename_i hspace
    have hend : m.here + code.length ≤ m.size := by
      have := m.here_add_unused
      omega
    split at h
    · rename_i error hwords
      cases h
      obtain ⟨patch, hpatch, hword⟩ := exists_of_mapM_eq_error hwords
      obtain ⟨hsite, htarget⟩ := hpatches patch hpatch
      have hbound : patch.site < m.allocated.length := by rwa [length_allocated]
      have hget : m.get8? patch.site = some m.allocated[patch.site] := by
        rw [get8?_eq, List.getElem?_eq_getElem]
      rw [Patch.word, hget] at hword
      exact atEnd_of_branchWord m.size_le (Nat.le_trans htarget hend) hword
    · cases h
      trivial
    · split at h <;> cases h

namespace Control
variable {word : Control} {here limit : Nat} {frames : List Frame} {plan : Plan}

/-- The branches that a word closes go to the end of its code. -/
theorem target_of_plan (h : word.plan here frames = .ok plan) :
    ∀ patch ∈ plan.patches, patch.target = here + sizeAll plan.code := by
  unfold Control.plan at h
  split at h
  case h_12 =>
    split at h
    · cases h
      simp
    · cases h
  case h_13 => cases h
  all_goals
    cases h
    simp [toward, Instr.size, or_imp, forall_and]

theorem error_of_plan {e : Error} (h : word.plan here frames = .error e) :
    ∃ name, e = .unbalanced name := by
  unfold Control.plan at h
  split at h
  case h_12 =>
    split at h
    · cases h
    · cases h
      exact ⟨_, rfl⟩
  case h_13 =>
    cases h
    exact ⟨_, rfl⟩
  all_goals cases h

theorem within_code (h : ∀ top ∈ frames.filterMap Frame.top?, top ≤ limit) (word : Control) :
    ∀ i ∈ word.code frames, i.Within limit := by
  have htop : Frame.innermostTop frames ≤ limit := by
    cases hfind : frames.findSome? Frame.top? with
    | none => simp [Frame.innermostTop, hfind]
    | some top =>
      obtain ⟨frame, hframe, htop⟩ := List.exists_of_findSome?_eq_some hfind
      have hle := h top (List.mem_filterMap.mpr ⟨frame, hframe, htop⟩)
      simpa [Frame.innermostTop, hfind] using hle
  cases word with
  | breakWord =>
    cases hloop : Frame.innermost frames with
    | none => simp [code, hloop]
    | some loop => cases loop <;> simp [code, hloop, Loop.leaveCode, Instr.Within, target?]
  | _ => simp [code, Instr.Within, target?, htop]

end Control

/-- Loops of an open definition go back to its code. -/
theorem Assembler.Defines.top_le {older : List UInt8} {link : Link} {name : String}
    {draft : Draft.Any Instr} {a : Assembler} (h : a.Defines id older link name draft) :
    ∀ top ∈ a.frames.filterMap Frame.top?, top ≤ a.here := by
  intro top htop
  rw [h.code.frames] at htop
  have hhere : a.here = _ := h.code.here_eq
  rw [hhere]
  exact (draft.2.tops_le id _ htop).2

namespace Action
variable {α : Type} {a : Assembler}

/-- What is refused is so for other reasons than a branch out of reach, or at the end of a buffer of
that size. -/
def Contained (size : Nat) (x : Action α) (a : Assembler) : Prop :=
  x.Meets (fun _ _ => True) (fun e _ => e.AtEnd size) True a

/-- Code appended and branches filled in. -/
theorem contained_emit {code : List Instr} {patches : List Patch}
    (hcode : ∀ i ∈ code, i.Within a.dictionary.memory.size)
    (hpatches : ∀ patch ∈ patches, patch.site < a.here ∧ patch.target ≤ a.here + sizeAll code) :
    (emit code patches).Contained a.dictionary.memory.size a := by
  simp only [Contained, emit, commit, meets_bind, meets_ofExcept, meets_get, meets_ofHalting,
    meets_setDictionary, meets_pure, implies_true, and_true, true_and, encodeAll_eq_ok_iff]
  refine ⟨?_, fun e he => atEnd_of_encodeAll a.dictionary.memory.size_le hcode he⟩
  rintro _ ⟨-, rfl⟩ e he
  refine Memory.atEnd_of_commit (fun patch hpatch => ?_) he
  rw [length_bytesAll]
  exact hpatches patch hpatch

theorem contained_control (hholes : ∀ hole ∈ a.frames.flatMap Frame.holes, hole.1 + 2 ≤ a.here)
    (htops : ∀ top ∈ a.frames.filterMap Frame.top?, top ≤ a.here) (word : Control) :
    (control word).Contained a.dictionary.memory.size a := by
  have hhere : a.here ≤ a.dictionary.memory.size := a.dictionary.memory.here_le
  simp only [control, Contained, meets_bind, meets_get, meets_ofExcept]
  refine ⟨fun plan hplan => ?_, fun e he => ?_⟩
  · obtain ⟨target, closed, kept, opened, hpatches, hclosed, -, -⟩ := Control.plan_holes hplan
    refine (contained_emit ?_ ?_).mono (fun _ _ _ => trivial) (fun _ _ he => he) id
    · rw [Control.code_of_plan hplan]
      exact Control.within_code (fun top htop => Nat.le_trans (htops top htop) hhere) word
    · intro patch hpatch
      refine ⟨?_, Nat.le_of_eq (Control.target_of_plan hplan patch hpatch)⟩
      rw [hpatches] at hpatch
      obtain ⟨site, hsite, rfl⟩ := List.mem_map.mp hpatch
      exact Nat.lt_of_lt_of_le (Nat.lt_add_of_pos_right (by decide))
        (Frame.sites_le hclosed hholes site hsite)
  · obtain ⟨name, rfl⟩ := Control.error_of_plan he
    trivial

theorem contained_openLoop : openLoop.Contained a.dictionary.memory.size a := by
  have hhere : a.here ≤ a.dictionary.memory.size := a.dictionary.memory.here_le
  have hsize : a.dictionary.memory.size ≤ maxCapacity := a.dictionary.memory.size_le
  simp only [openLoop, Contained, meets_bind, meets_get, meets_ite, meets_refuse, meets_setFrames,
    meets_pure, implies_true, and_true]
  intro hlt
  simp only [Error.AtEnd, maxCapacity] at *
  omega

/-- The words of a body go to allocated offsets, but for a call to anywhere. -/
theorem contained_action (hholes : ∀ hole ∈ a.frames.flatMap Frame.holes, hole.1 + 2 ≤ a.here)
    (htops : ∀ top ∈ a.frames.filterMap Frame.top?, top ≤ a.here) {word : Symbol Instr}
    (hword : ∀ instr, word = .plain instr → instr.Within a.dictionary.memory.size) :
    (word.action id).Contained a.dictionary.memory.size a := by
  cases word with
  | plain instr => exact contained_emit (by simpa using hword instr rfl) (by simp)
  | begin => exact contained_openLoop
  | control word => exact contained_control hholes htops word

end Action

/-- A demand for allocated offsets is refused for an offset only at the end of the buffer. -/
theorem Assembler.Failure.atEnd {a a' : Assembler} {demand : Demand} {e : Error}
    (h : Failure demand a (.refused e) a')
    (hholes : ∀ hole ∈ a.frames.flatMap Frame.holes, hole.1 + 2 ≤ a.here)
    (htops : ∀ top ∈ a.frames.filterMap Frame.top?, top ≤ a.here)
    (hcalls : ∀ target, demand.calls target → target ≤ a.dictionary.memory.size) :
    e.AtEnd a.dictionary.memory.size := by
  by_cases hreach : e.OutOfReach
  · obtain ⟨word, b, hword, hrun⟩ := h.reach e rfl hreach
    have hwithin (instr : Instr) (heq : word = .plain instr) :
        instr.Within a.dictionary.memory.size :=
      fun target htarget => hcalls target (hword instr heq target htarget)
    exact (Action.contained_action hholes htops hwithin).of_refused hrun
  · exact e.atEnd_of_not_outOfReach hreach _

end ForthAssembler
