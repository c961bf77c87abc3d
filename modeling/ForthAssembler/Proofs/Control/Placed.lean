import ForthAssembler.Proofs.Code.Resolve
import ForthAssembler.Proofs.Control.Holes

/-! Placeholders of open branches in any bytes, be they the code of a definition or not. A control
word fills in some of them and keeps the others. -/
namespace ForthAssembler
open Instr

/-- The placeholder of a branch stands in the bytes. -/
def Hole (bytes : List UInt8) (hole : Nat × Instr) : Prop :=
  (bytes.drop hole.1).take 2 = hole.2.bytes

section
variable {bytes : List UInt8} {hole : Nat × Instr}

theorem Hole.le_length (h : Hole bytes hole) (hsize : hole.2.size = 2) :
    hole.1 + 2 ≤ bytes.length := by
  have hlength := congrArg List.length h
  rw [List.length_take, List.length_drop, length_bytes, hsize] at hlength
  omega

theorem Hole.append (h : Hole bytes hole) (hsize : hole.2.size = 2) (rest : List UInt8) :
    Hole (bytes ++ rest) hole := by
  have hle := h.le_length hsize
  unfold Hole
  rw [List.drop_append_of_le_length (by omega), List.take_append_of_le_length]
  · exact h
  · rw [List.length_drop]
    omega

/-- An instruction of two bytes stands where it is located. -/
theorem hole_of_mem_located {code : List Instr} (h : hole ∈ located bytes.length code)
    (hsize : hole.2.size = 2) : Hole (bytes ++ bytesAll code) hole := by
  obtain ⟨front, back, rfl, hoffset⟩ := exists_of_mem_located h
  have hfront : hole.1 = (bytes ++ bytesAll front).length := by
    rw [hoffset, List.length_append, length_bytesAll]
  have hlength : hole.2.bytes.length = 2 := by rw [length_bytes, hsize]
  have hsplit : bytes ++ bytesAll (front ++ hole.2 :: back) =
      (bytes ++ bytesAll front) ++ (hole.2.bytes ++ bytesAll back) := by
    simp
  unfold Hole
  rw [hsplit, hfront, List.drop_left, ← hlength, List.take_left]

/-- A branch that is filled in elsewhere leaves the placeholder as it is. -/
theorem getElem?_redirect {before : List UInt8} {target site n : Nat}
    (hsite : site + 2 ≤ bytes.length) (hn : n < site ∨ site + 2 ≤ n) :
    (redirect before target bytes site)[n]? = bytes[n]? := by
  have htake : (bytes.take site).length = site := by
    rw [List.length_take]
    omega
  unfold redirect
  rcases hn with hn | hn
  · rw [List.append_assoc, List.getElem?_append_left (by omega), List.getElem?_take_of_lt hn]
  · have hlength : (bytes.take site ++ Cell.bytes
        ((branchOpcode (before[site]?.getD 0)).toNat * 256 + target)).length = site + 2 := by
      simp [htake, Cell.bytes]
    rw [List.getElem?_append_right (by omega), hlength, List.getElem?_drop]
    congr 1
    omega

/-- By induction on the sites. -/
theorem getElem?_foldl_redirect {before : List UInt8} {target n : Nat} {sites : List Nat}
    (hsites : ∀ site ∈ sites, site + 2 ≤ bytes.length)
    (hn : ∀ site ∈ sites, n < site ∨ site + 2 ≤ n) :
    (sites.foldl (redirect before target) bytes)[n]? = bytes[n]? := by
  induction sites generalizing bytes with
  | nil => rfl
  | cons site sites ih =>
    obtain ⟨hsite, hrest⟩ := List.forall_mem_cons.mp hsites
    obtain ⟨hfirst, hlater⟩ := List.forall_mem_cons.mp hn
    rw [List.foldl_cons, ih (by simpa only [length_redirect hsite] using hrest) hlater,
      getElem?_redirect hsite hfirst]

theorem length_foldl_redirect {before : List UInt8} {target : Nat} {sites : List Nat}
    (hsites : ∀ site ∈ sites, site + 2 ≤ bytes.length) :
    (sites.foldl (redirect before target) bytes).length = bytes.length := by
  induction sites generalizing bytes with
  | nil => rfl
  | cons site sites ih =>
    obtain ⟨hsite, hrest⟩ := List.forall_mem_cons.mp hsites
    rw [List.foldl_cons, ih (by simpa only [length_redirect hsite] using hrest),
      length_redirect hsite]

theorem hole_congr {bytes' : List UInt8} (h : Hole bytes hole)
    (hget : ∀ i < 2, bytes'[hole.1 + i]? = bytes[hole.1 + i]?) : Hole bytes' hole := by
  unfold Hole at h ⊢
  rw [← h]
  refine List.ext_getElem? fun i => ?_
  by_cases hi : i < 2
  · rw [List.getElem?_take_of_lt hi, List.getElem?_take_of_lt hi, List.getElem?_drop,
      List.getElem?_drop, hget i hi]
  · rw [List.getElem?_take_eq_none (by omega), List.getElem?_take_eq_none (by omega)]

end

namespace Control

/-- Leaving a loop leaves one more jump open, which is the last instruction of the code. -/
theorem leaveLoop?_holes {here : Nat} {frames after : List Frame} {code : List Instr}
    (h : leaveLoop? here frames = some (code, after)) :
    ∃ site, (site, Instr.jump 0) ∈ located here code ∧
      (after.flatMap Frame.holes).Perm (frames.flatMap Frame.holes ++ [(site, .jump 0)]) := by
  fun_induction leaveLoop? here frames generalizing code after with
  | case1 => cases h
  | case2 top breaks frames =>
    cases h
    refine ⟨here, by simp, ?_⟩
    simp only [List.flatMap_cons, Frame.holes, List.map_append, List.map_cons, List.map_nil,
      List.append_assoc]
    exact List.Perm.append_left _ List.perm_append_comm
  | case3 top breaks frames =>
    cases h
    refine ⟨here + 1, by simp [located, Instr.size], ?_⟩
    simp only [List.flatMap_cons, Frame.holes, List.map_append, List.map_cons, List.map_nil,
      List.append_assoc]
    exact List.Perm.append_left _ List.perm_append_comm
  | case4 frame frames _ _ ih =>
    obtain ⟨⟨code', after'⟩, hleave, heq⟩ := Option.map_eq_some_iff.mp h
    obtain ⟨rfl, rfl⟩ := Prod.mk.inj heq
    obtain ⟨site, hsite, hperm⟩ := ih hleave
    refine ⟨site, hsite, ?_⟩
    rw [List.flatMap_cons, List.flatMap_cons, List.append_assoc]
    exact hperm.append_left _

/-- A control word closes some of the open branches, all toward one target, and keeps the others.
Those that it opens stand in its own code. -/
theorem plan_holes {word : Control} {here : Nat} {frames : List Frame} {plan : Plan}
    (h : word.plan here frames = .ok plan) : ∃ target closed kept opened,
      plan.patches = toward target (closed.map Prod.fst) ∧
      (frames.flatMap Frame.holes).Perm (closed ++ kept) ∧
      (plan.frames.flatMap Frame.holes).Perm (kept ++ opened) ∧
      opened.Sublist (located here plan.code) := by
  have hbreaks (breaks : List Nat) :
      (breaks.map fun site => (site, Instr.jump 0)).map Prod.fst = breaks := by
    simp [Function.comp_def]
  have hopens (hole : Nat × Instr) (rest : List (Nat × Instr)) :
      (hole :: rest).Perm (rest ++ [hole]) := (List.perm_append_singleton hole rest).symm
  have hcloses (rest : List (Nat × Instr)) : rest.Perm (rest ++ []) := by rw [List.append_nil]
  unfold Control.plan at h
  split at h
  case h_1 =>
    cases h
    exact ⟨0, [], _, [(here, .jumpZero 0)], rfl, .refl _, hopens _ _, by simp [located]⟩
  case h_2 site rest =>
    cases h
    exact ⟨here + 2, [(site, .jumpZero 0)], _, [(here, .jump 0)], rfl, .refl _, hopens _ _,
      by simp [located]⟩
  case h_3 site rest =>
    cases h
    exact ⟨here, [(site, .jumpZero 0)], _, [], rfl, .refl _, hcloses _, List.nil_sublist _⟩
  case h_4 site rest =>
    cases h
    exact ⟨here, [(site, .jump 0)], _, [], rfl, .refl _, hcloses _, List.nil_sublist _⟩
  case h_5 top breaks rest =>
    cases h
    exact ⟨here + 2, breaks.map fun site => (site, .jump 0), _, [], by rw [hbreaks], .refl _,
      hcloses _, List.nil_sublist _⟩
  case h_6 site top breaks rest =>
    cases h
    refine ⟨here + 2, (breaks.map fun site => (site, .jump 0)) ++ [(site, .jumpZero 0)], _, [], ?_,
      ?_, hcloses _, List.nil_sublist _⟩
    · rw [List.map_append, hbreaks]
      rfl
    · exact (hopens (site, .jumpZero 0) (breaks.map fun site => (site, .jump 0))).append_right
        (rest.flatMap Frame.holes)
  case h_7 top breaks rest =>
    cases h
    exact ⟨here + 2, breaks.map fun site => (site, .jump 0), _, [], by rw [hbreaks], .refl _,
      hcloses _, List.nil_sublist _⟩
  case h_8 top breaks rest =>
    cases h
    exact ⟨0, [], _, [(here, .jumpZero 0)], rfl, .refl _, hopens _ _, by simp [located]⟩
  case h_9 site top breaks rest =>
    cases h
    refine ⟨here + 2, (site, .jumpZero 0) :: breaks.map fun site => (site, .jump 0), _, [], ?_,
      .refl _, hcloses _, List.nil_sublist _⟩
    rw [List.map_cons, hbreaks]
  case h_10 =>
    cases h
    exact ⟨0, [], _, [], rfl, .refl _, hcloses _, List.nil_sublist _⟩
  case h_11 top breaks rest =>
    cases h
    exact ⟨here + 3, breaks.map fun site => (site, .jump 0), _, [], by rw [hbreaks], .refl _,
      hcloses _, List.nil_sublist _⟩
  case h_12 =>
    split at h
    · rename_i hleave
      cases h
      obtain ⟨site, hsite, hperm⟩ := leaveLoop?_holes hleave
      exact ⟨0, [], _, [(site, .jump 0)], rfl, .refl _, hperm, List.singleton_sublist.mpr hsite⟩
    · cases h
  case h_13 => cases h

end Control

namespace Frame

/-- The placeholders of all open branches stand in the bytes, and no two of them share a byte. -/
structure Placed (bytes : List UInt8) (frames : List Frame) : Prop where
  stands : ∀ hole ∈ frames.flatMap holes, Hole bytes hole
  apart : (frames.flatMap holes).Pairwise Apart

variable {bytes : List UInt8} {frames : List Frame}

theorem size_of_mem_holes {hole : Nat × Instr} (h : hole ∈ frames.flatMap holes) :
    hole.2.size = 2 := by
  obtain ⟨frame, -, hmem⟩ := List.mem_flatMap.mp h
  rcases placeholder_of_mem_holes hmem with heq | heq <;> rw [heq] <;> rfl

theorem placed_nil (bytes : List UInt8) : Placed bytes [] := ⟨by simp, .nil⟩

theorem Placed.append (h : Placed bytes frames) (rest : List UInt8) :
    Placed (bytes ++ rest) frames :=
  ⟨fun hole hmem => (h.stands hole hmem).append (size_of_mem_holes hmem) rest, h.apart⟩

theorem Placed.le_length (h : Placed bytes frames) {hole : Nat × Instr}
    (hmem : hole ∈ frames.flatMap holes) : hole.1 + 2 ≤ bytes.length :=
  (h.stands hole hmem).le_length (size_of_mem_holes hmem)

/-- Branches that are closed are among those that were open. -/
theorem sites_le {n : Nat} {before closed kept : List (Nat × Instr)}
    (hclosed : before.Perm (closed ++ kept)) (hopen : ∀ hole ∈ before, hole.1 + 2 ≤ n) :
    ∀ site ∈ closed.map Prod.fst, site + 2 ≤ n := by
  intro site hsite
  obtain ⟨hole, hhole, rfl⟩ := List.mem_map.mp hsite
  exact hopen hole (hclosed.mem_iff.mpr (List.mem_append_left _ hhole))

/-- Filling in some of the placeholders keeps the others, and code that is appended brings its own. -/
theorem Placed.fill (h : Placed bytes frames) {after : List Frame} {code : List Instr}
    {closed kept opened : List (Nat × Instr)} (hclosed : (frames.flatMap holes).Perm (closed ++ kept))
    (hafter : (after.flatMap holes).Perm (kept ++ opened))
    (hopened : opened.Sublist (located bytes.length code)) (before : List UInt8) (target : Nat) :
    Placed ((closed.map Prod.fst).foldl (redirect before target) bytes ++ bytesAll code) after := by
  have hsites : ∀ site ∈ closed.map Prod.fst, site + 2 ≤ bytes.length :=
    sites_le hclosed fun _ hmem => h.le_length hmem
  have hlength : ((closed.map Prod.fst).foldl (redirect before target) bytes).length =
      bytes.length := length_foldl_redirect hsites
  have hpairs := (hclosed.pairwise_iff fun h => h.symm).mp h.apart
  obtain ⟨-, hkeptApart, hclosedKept⟩ := List.pairwise_append.mp hpairs
  have hkept : ∀ hole ∈ kept, hole ∈ frames.flatMap holes := fun hole hmem =>
    hclosed.mem_iff.mpr (List.mem_append_right _ hmem)
  constructor
  · intro hole hmem
    have hsize := size_of_mem_holes hmem
    rcases List.mem_append.mp (hafter.mem_iff.mp hmem) with hole_kept | hole_opened
    · refine Hole.append (hole_congr (h.stands hole (hkept hole hole_kept)) fun i hi => ?_) hsize _
      refine getElem?_foldl_redirect hsites fun site hsite => ?_
      obtain ⟨other, hother, rfl⟩ := List.mem_map.mp hsite
      have hsize' := size_of_mem_holes (hclosed.mem_iff.mpr (List.mem_append_left _ hother))
      have hapart := hclosedKept other hother hole hole_kept
      unfold Apart at hapart
      omega
    · rw [← hlength] at hopened
      exact hole_of_mem_located (hopened.subset hole_opened) hsize
  · refine (hafter.pairwise_iff fun h => h.symm).mpr (List.pairwise_append.mpr ⟨hkeptApart, ?_, ?_⟩)
    · exact (pairwise_located _ _).sublist hopened
    · intro hole hmem other hother
      have hsize := size_of_mem_holes (hkept hole hmem)
      have hle := h.le_length (hkept hole hmem)
      have hge := (le_of_mem_located (hopened.subset hother)).1
      left
      omega

end Frame
end ForthAssembler
