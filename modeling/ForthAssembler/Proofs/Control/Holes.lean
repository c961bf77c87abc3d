import ForthAssembler.Proofs.Control.Draft
import Mathlib.Data.List.Perm.Basic

/-! The branches that open structures have left without a target, as they stand in the code. -/
namespace ForthAssembler
open Instr

/-- The instructions of code that starts at `base`, each with its offset. -/
def located (base : Nat) : List Instr → List (Nat × Instr)
  | [] => []
  | i :: code => (base, i) :: located (base + i.size) code

@[simp] theorem located_nil (base : Nat) : located base [] = [] := rfl

@[simp] theorem located_cons (base : Nat) (i : Instr) (code : List Instr) :
    located base (i :: code) = (base, i) :: located (base + i.size) code := rfl

@[simp] theorem located_append (base : Nat) (code later : List Instr) :
    located base (code ++ later) = located base code ++ located (base + sizeAll code) later := by
  induction code generalizing base with
  | nil => rfl
  | cons i code ih => simp [ih, Nat.add_assoc]

/-- An instruction stands behind those before it. -/
theorem exists_of_mem_located {base offset : Nat} {i : Instr} {code : List Instr}
    (h : (offset, i) ∈ located base code) :
    ∃ front back, code = front ++ i :: back ∧ offset = base + sizeAll front := by
  induction code generalizing base with
  | nil => cases h
  | cons first code ih =>
    rcases List.mem_cons.mp h with heq | h
    · cases heq
      exact ⟨[], code, rfl, rfl⟩
    · obtain ⟨front, back, rfl, rfl⟩ := ih h
      exact ⟨first :: front, back, rfl, by simp [Nat.add_assoc]⟩

theorem le_of_mem_located {base : Nat} {found : Nat × Instr} {code : List Instr}
    (h : found ∈ located base code) :
    base ≤ found.1 ∧ found.1 + found.2.size ≤ base + sizeAll code := by
  obtain ⟨front, back, rfl, hoffset⟩ := exists_of_mem_located h
  simp only [sizeAll_append, sizeAll_cons]
  omega

/-- Two instructions that share no byte. -/
def Apart (found other : Nat × Instr) : Prop :=
  found.1 + found.2.size ≤ other.1 ∨ other.1 + other.2.size ≤ found.1

theorem pairwise_located (base : Nat) (code : List Instr) :
    (located base code).Pairwise Apart := by
  induction code generalizing base with
  | nil => exact .nil
  | cons i code ih =>
    exact .cons (fun other hother => .inl (le_of_mem_located hother).1) (ih _)

theorem pairwise_of_subperm_located {base : Nat} {code : List Instr} {found : List (Nat × Instr)}
    (h : found.Subperm (located base code)) : found.Pairwise Apart := by
  obtain ⟨sorted, hperm, hsub⟩ := h
  exact (hperm.pairwise_iff fun h => h.symm).mp ((pairwise_located base code).sublist hsub)

namespace Frame

/-- The branches without a target that a frame is to close, with their offsets. -/
def holes : Frame → List (Nat × Instr)
  | cond site | guard site => [(site, .jumpZero 0)]
  | alt site => [(site, .jump 0)]
  | loop _ breaks | counted _ breaks => breaks.map fun site => (site, .jump 0)

theorem placeholder_of_mem_holes {frame : Frame} {hole : Nat × Instr} (h : hole ∈ frame.holes) :
    hole.2 = .jumpZero 0 ∨ hole.2 = .jump 0 := by
  cases frame <;> simp only [holes, List.mem_singleton, List.mem_map] at h
  case cond => simp [h]
  case guard => simp [h]
  case alt => simp [h]
  all_goals
    obtain ⟨site, -, rfl⟩ := h
    simp

/-- Where a loop goes back to. -/
def top? : Frame → Option Nat
  | loop top _ | counted top _ => some top
  | cond _ | alt _ | guard _ => none

theorem count_holes_addBreaks (sites : List Nat) (frames : List Frame) (hole : Nat × Instr) :
    ((addBreaks sites frames).flatMap holes).count hole ≤
      (frames.flatMap holes).count hole +
        (sites.map fun site => (site, Instr.jump 0)).count hole := by
  fun_induction addBreaks sites frames with
  | case1 => exact Nat.zero_le _
  | case2 top breaks frames =>
    simp only [List.flatMap_cons, holes, List.map_append, List.count_append]
    omega
  | case3 top breaks frames =>
    simp only [List.flatMap_cons, holes, List.map_append, List.count_append]
    omega
  | case4 frame frames _ _ ih =>
    simp only [List.flatMap_cons, List.count_append]
    omega

@[simp] theorem tops_addBreaks (sites : List Nat) (frames : List Frame) :
    (addBreaks sites frames).filterMap top? = frames.filterMap top? := by
  fun_induction addBreaks sites frames <;> simp_all [List.filterMap_cons, top?]

theorem guard_addBreaks {sites : List Nat} {frames : List Frame} {i site : Nat} :
    (addBreaks sites frames)[i]? = some (guard site) ↔ frames[i]? = some (guard site) := by
  fun_induction addBreaks sites frames generalizing i with
  | case1 => rfl
  | case2 => cases i <;> simp
  | case3 => cases i <;> simp
  | case4 frame frames _ _ ih => cases i <;> simp [ih]

theorem loop_addBreaks {sites : List Nat} {frames : List Frame} {i : Nat} :
    (∃ top breaks, (addBreaks sites frames)[i]? = some (loop top breaks)) ↔
      ∃ top breaks, frames[i]? = some (loop top breaks) := by
  fun_induction addBreaks sites frames generalizing i with
  | case1 => rfl
  | case2 => cases i <;> simp
  | case3 => cases i <;> simp
  | case4 frame frames _ _ ih => cases i <;> simp [ih]

/-- Every guard stands directly above the loop that it leaves. -/
def Guarded (frames : List Frame) : Prop :=
  ∀ i site, frames[i]? = some (guard site) → ∃ top breaks, frames[i + 1]? = some (loop top breaks)

theorem Guarded.addBreaks {frames : List Frame} (h : Guarded frames) (sites : List Nat) :
    Guarded (addBreaks sites frames) := by
  intro i site hguard
  exact loop_addBreaks.mpr (h i site (guard_addBreaks.mp hguard))

theorem Guarded.cons {frames : List Frame} (h : Guarded frames) {frame : Frame}
    (hframe : ∀ site, frame ≠ guard site) : Guarded (frame :: frames) := by
  intro i site hguard
  cases i with
  | zero => exact absurd (by simpa using hguard) (hframe site)
  | succ i => exact h i site (by simpa using hguard)

theorem Guarded.guard {top site : Nat} {breaks : List Nat} {frames : List Frame}
    (h : Guarded (loop top breaks :: frames)) :
    Guarded (guard site :: loop top breaks :: frames) := by
  intro i other hguard
  cases i with
  | zero => exact ⟨top, breaks, rfl⟩
  | succ i => exact h i other (by simpa using hguard)

end Frame

variable {α : Type} (instr : α → Instr) {k : Option Loop}

/-- The jumps out of the innermost loop stand in the code of a body. -/
theorem Body.sites_sublist (base exit : Nat) (b : Body α k) :
    ((b.sites instr base).map fun site => (site, Instr.jump exit)).Sublist
      (located base (b.layout instr base exit)) := by
  induction b generalizing base exit with
  | empty => exact .slnil
  | plain item rest ih => exact (ih _ _).cons _
  | @leave l rest ih =>
    cases l with
    | endless => exact (ih _ _).cons_cons _
    | counted => exact ((ih _ _).cons_cons _).cons _
  | cond yes rest ihy ih =>
    simp only [sites, layout, List.map_append, List.cons_append, located_cons, located_append,
      sizeAll_layout]
    exact ((ihy _ _).append (ih _ _)).cons _
  | choice yes no rest ihy ihn ih =>
    simp only [sites, layout, List.map_append, List.cons_append, List.append_assoc, located_cons,
      located_append, sizeAll_layout]
    exact ((ihy _ _).append (((ihn _ _).append (ih _ _)).cons _)).cons _
  | loop body back rest _ ih =>
    simp only [sites, layout, located_cons, located_append, sizeAll_layout, Back.size_jump]
    exact ((ih _ _).cons _).trans (List.sublist_append_right _ _)
  | guarded test body back rest _ _ ih =>
    simp only [sites, layout, List.append_assoc, List.cons_append, located_cons, located_append,
      sizeAll_layout, Back.size_jump, size_jumpZero]
    exact (((((ih _ _).cons _).trans (List.sublist_append_right _ _)).cons _).trans
      (List.sublist_append_right _ _))
  | counted body rest _ ih =>
    simp only [sites, layout, List.append_assoc, List.cons_append, List.nil_append, located_cons,
      located_append, sizeAll_layout, size_forLoop, size_next, size_jump]
    exact ((((ih _ _).cons _).cons _).trans (List.sublist_append_right _ _)).cons _

namespace Draft

/-- A branch that a frame is to close stands in the code of its own structure or, if it leaves a
loop, in that of a structure inside. -/
theorem count_holes_le (base : Nat) (d : Draft α k) (hole : Nat × Instr) :
    ((d.frames instr base).flatMap Frame.holes).count hole ≤
      (located base (d.layout instr base)).count hole := by
  have hadd := fun sites frames => Frame.count_holes_addBreaks sites frames hole
  have hsites {k : Option Loop} (b : Body α k) (start : Nat) :=
    (b.sites_sublist instr start 0).count_le hole
  induction d with
  | body b => exact Nat.zero_le _
  | cond d yes ih =>
    have := hadd (yes.sites instr (base + d.size instr + 2)) (d.frames instr base)
    have := hsites yes (base + d.size instr + 2)
    simp only [frames, layout, List.flatMap_cons, Frame.holes, located_append, located_cons,
      sizeAll_layout, size_jumpZero, List.count_append, List.count_cons, List.count_nil]
    omega
  | choice d yes no ih =>
    have := hadd (yes.sites instr (base + d.size instr + 2) ++
      no.sites instr (base + d.size instr + 2 + yes.size instr + 2)) (d.frames instr base)
    have := hsites yes (base + d.size instr + 2)
    have := hsites no (base + d.size instr + 2 + yes.size instr + 2)
    simp only [frames, layout, List.flatMap_cons, Frame.holes, located_append, located_cons,
      sizeAll_append, sizeAll_cons, sizeAll_layout, Body.sizeAll_layout, size_jumpZero, size_jump,
      List.map_append, List.count_append, List.count_cons, List.count_nil, ← Nat.add_assoc] at *
    omega
  | loop d b ih =>
    have := hsites b (base + d.size instr)
    simp only [frames, layout, List.flatMap_cons, Frame.holes, located_append, sizeAll_layout,
      List.count_append]
    omega
  | guarded d test b ih =>
    have := hsites test (base + d.size instr)
    have := hsites b (base + d.size instr + test.size instr + 2)
    simp only [frames, layout, List.flatMap_cons, Frame.holes, located_append, located_cons,
      sizeAll_append, sizeAll_layout, Body.sizeAll_layout, size_jumpZero, List.map_append,
      List.count_append, List.count_cons, List.count_nil, ← Nat.add_assoc] at *
    omega
  | counted d b ih =>
    have := hsites b (base + d.size instr + 1)
    simp only [frames, layout, List.flatMap_cons, Frame.holes, located_append, located_cons,
      sizeAll_layout, size_forLoop, List.count_append, List.count_cons]
    omega

/-- The branches that the frames of a draft are to close stand in its code, none of them twice. -/
theorem holes_subperm (base : Nat) (d : Draft α k) :
    ((d.frames instr base).flatMap Frame.holes).Subperm (located base (d.layout instr base)) :=
  List.subperm_ext_iff.mpr fun hole _ => d.count_holes_le instr base hole

/-- Loops go back to where code of the draft starts or, if they are empty, is to start. -/
theorem tops_le (base : Nat) (d : Draft α k) {top : Nat}
    (h : top ∈ (d.frames instr base).filterMap Frame.top?) :
    base ≤ top ∧ top ≤ base + d.size instr := by
  induction d with
  | body b => cases h
  | cond d yes ih =>
    simp only [frames, List.filterMap_cons, Frame.top?, Frame.tops_addBreaks, size] at h ⊢
    have := ih h
    omega
  | choice d yes no ih =>
    simp only [frames, List.filterMap_cons, Frame.top?, Frame.tops_addBreaks, size] at h ⊢
    have := ih h
    omega
  | loop d b ih =>
    simp only [frames, List.filterMap_cons, Frame.top?, List.mem_cons, size] at h ⊢
    rcases h with rfl | h
    · omega
    · have := ih h
      omega
  | guarded d test b ih =>
    simp only [frames, List.filterMap_cons, Frame.top?, List.mem_cons, size] at h ⊢
    rcases h with rfl | h
    · omega
    · have := ih h
      omega
  | counted d b ih =>
    simp only [frames, List.filterMap_cons, Frame.top?, List.mem_cons, size] at h ⊢
    rcases h with rfl | h
    · omega
    · have := ih h
      omega

theorem guarded_frames (base : Nat) (d : Draft α k) : Frame.Guarded (d.frames instr base) := by
  induction d with
  | body b => simp [Frame.Guarded]
  | cond d yes ih => exact (ih.addBreaks _).cons nofun
  | choice d yes no ih => exact (ih.addBreaks _).cons nofun
  | loop d b ih => exact ih.cons nofun
  | guarded d test b ih => exact .guard (ih.cons nofun)
  | counted d b ih => exact ih.cons nofun

end Draft
end ForthAssembler
