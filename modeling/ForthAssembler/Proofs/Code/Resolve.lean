import ForthAssembler.Control.Plan
import ForthAssembler.Memory.Lemmas
import ForthAssembler.Proofs.Code.Bytes

/-! Filling in branches: on bytes as the memory does it, and on whole instructions. -/
namespace ForthAssembler
open Instr

/-- The bytes with the branch at `site` pointed to `target`; its opcode is the one in `before`. -/
def redirect (before : List UInt8) (target : Nat) (bytes : List UInt8) (site : Nat) : List UInt8 :=
  bytes.take site ++
    Cell.bytes ((branchOpcode (before[site]?.getD 0)).toNat * 256 + target) ++ bytes.drop (site + 2)

theorem branchOpcode_mod (first : UInt8) : (branchOpcode first).toNat % 16 = 0 := by
  have := first.toNat_lt
  rw [branchOpcode, UInt8.toNat_mul, UInt8.toNat_div]
  change first.toNat / 16 * 16 % 256 % 16 = 0
  omega

theorem length_redirect {before bytes : List UInt8} {target site : Nat}
    (h : site + 2 ≤ bytes.length) :
    (redirect before target bytes site).length = bytes.length := by
  simp [redirect, Cell.bytes]
  omega

theorem redirect_append {before bytes : List UInt8} {target site : Nat}
    (h : site + 2 ≤ bytes.length) (code : List UInt8) :
    redirect before target (bytes ++ code) site = redirect before target bytes site ++ code := by
  simp [redirect, List.take_append_of_le_length (show site ≤ bytes.length by omega),
    List.drop_append_of_le_length h]

theorem foldl_redirect_append {before bytes : List UInt8} {target : Nat} {sites : List Nat}
    (h : ∀ site ∈ sites, site + 2 ≤ bytes.length) (code : List UInt8) :
    sites.foldl (redirect before target) (bytes ++ code) =
      sites.foldl (redirect before target) bytes ++ code := by
  induction sites generalizing bytes with
  | nil => rfl
  | cons site sites ih =>
    obtain ⟨hsite, hsites⟩ := List.forall_mem_cons.mp h
    rw [List.foldl_cons, redirect_append hsite, List.foldl_cons, ih]
    simpa only [length_redirect hsite] using hsites

namespace Memory

/-- The cells that are to stand at the sites, once all branches reach the target. -/
theorem mapM_word {m : Memory} {target : Nat} {sites : List Nat} (htarget : target ≤ maxTarget)
    (h : ∀ site ∈ sites, site < m.here) :
    (Control.toward target sites).mapM (Patch.word m) =
      .ok (sites.map fun site =>
        (branchOpcode (m.allocated[site]?.getD 0)).toNat * 256 + target) := by
  induction sites with
  | nil => rfl
  | cons site sites ih =>
    obtain ⟨hsite, hsites⟩ := List.forall_mem_cons.mp h
    have hget : m.get8? site = some (m.allocated[site]?.getD 0) := by
      rw [get8?_eq, List.getElem?_eq_getElem (by rwa [length_allocated])]
      rfl
    have hword : Patch.word m ⟨site, target⟩ = .ok
        ((branchOpcode (m.allocated[site]?.getD 0)).toNat * 256 + target) := by
      rw [Patch.word, hget]
      exact branchWord_of_le (branchOpcode_mod _) htarget
    change (⟨site, target⟩ :: Control.toward target sites).mapM (Patch.word m) = _
    rw [List.mapM_cons, hword, ih hsites]
    rfl

theorem foldlM_set16? (before : List UInt8) (target : Nat) {m : Memory} {sites : List Nat}
    (h : ∀ site ∈ sites, site + 2 ≤ m.here) :
    ∃ m', ((Control.toward target sites).zip (sites.map fun site =>
        (branchOpcode (before[site]?.getD 0)).toNat * 256 + target)).foldlM
          (fun (m : Memory) (patch, word) => m.set16? patch.site word) m = some m' ∧
      m'.allocated = sites.foldl (redirect before target) m.allocated ∧ m'.size = m.size := by
  induction sites generalizing m with
  | nil => exact ⟨m, rfl, rfl, rfl⟩
  | cons site sites ih =>
    obtain ⟨hsite, hsites⟩ := List.forall_mem_cons.mp h
    let word := (branchOpcode (before[site]?.getD 0)).toNat * 256 + target
    have hset := set16?_eq m site word
    rw [if_pos (show site + 1 < m.here by omega)] at hset
    obtain ⟨m₁, hm₁, halloc⟩ := Option.map_eq_some_iff.mp hset
    have hsize : m₁.size = m.size := by
      simp only [set16?] at hm₁
      split at hm₁
      · cases hm₁
        simp [size, write, size_overwrite]
      · cases hm₁
    have hhere : m₁.here = m.here := by
      rw [← length_allocated, halloc, ← length_allocated]
      rw [← length_allocated] at hsite
      simp [Cell.bytes]
      omega
    obtain ⟨m', hfold, hm', hsize'⟩ := ih (m := m₁) (hhere ▸ hsites)
    refine ⟨m', ?_, ?_, hsize'.trans hsize⟩
    · simpa [Control.toward, List.foldlM_cons, word, hm₁] using hfold
    · rw [hm', halloc, List.foldl_cons]
      rfl

/-- A commit that fits appends its code and points all sites to one target. -/
theorem commit_toward {m : Memory} {code : List UInt8} {target : Nat} {sites : List Nat}
    (h : ∀ site ∈ sites, site + 2 ≤ m.here) (hspace : code.length ≤ m.unused)
    (htarget : sites ≠ [] → target ≤ maxTarget) :
    ∃ m', m.commit code (Control.toward target sites) = .ok (m.here, m') ∧ m'.size = m.size ∧
      m'.allocated = sites.foldl (redirect m.allocated target) m.allocated ++ code := by
  have hpush : m.push? code ≠ none := fun hnone =>
    Nat.not_lt.mpr hspace ((push?_eq_none_iff m code).mp hnone)
  obtain ⟨⟨start, grown⟩, hgrown⟩ := Option.ne_none_iff_exists'.mp hpush
  obtain ⟨rfl, halloc, hsize⟩ := of_push?_eq_some hgrown
  have hhere : m.here ≤ grown.here := by
    rw [← length_allocated grown, halloc, List.length_append, length_allocated]
    omega
  have hwords : (Control.toward target sites).mapM (Patch.word m) = .ok (sites.map fun site =>
      (branchOpcode (m.allocated[site]?.getD 0)).toNat * 256 + target) := by
    cases sites with
    | nil => rfl
    | cons site sites =>
      exact mapM_word (htarget (by simp)) fun s hs => by have := h s hs; omega
  obtain ⟨filled, hfold, hfilled, hsize'⟩ := foldlM_set16? m.allocated target
    (m := grown) fun s hs => Nat.le_trans (h s hs) hhere
  refine ⟨filled, ?_, hsize'.trans hsize, ?_⟩
  · rw [commit, if_neg (Nat.not_lt.mpr hspace), hwords, hgrown]
    simp only [hfold]
  · rw [hfilled, halloc, foldl_redirect_append]
    simpa only [length_allocated] using h

theorem commit_toward_of_unused_lt {m : Memory} {code : List UInt8} (patches : List Patch)
    (h : m.unused < code.length) :
    m.commit code patches = .error (.refused (.outOfSpace code.length m.unused)) := by
  rw [commit, if_pos h]

/-- No branch is pointed out of reach. -/
theorem commit_toward_of_lt {m : Memory} {code : List UInt8} {target : Nat} {sites : List Nat}
    (hsites : sites ≠ []) (h : maxTarget < target) :
    ∃ e, m.commit code (Control.toward target sites) = .error (.refused e) := by
  obtain ⟨site, rest, rfl⟩ := List.exists_cons_of_ne_nil hsites
  have hword : ∃ e, Patch.word m ⟨site, target⟩ = .error e := by
    unfold Patch.word
    split
    · exact ⟨_, rfl⟩
    · exact ⟨_, by rw [branchWord, if_neg (Nat.not_le.mpr h)]⟩
  obtain ⟨e, he⟩ := hword
  have hmap : (Control.toward target (site :: rest)).mapM (Patch.word m) = .error e := by
    change (⟨site, target⟩ :: Control.toward target rest).mapM (Patch.word m) = _
    rw [List.mapM_cons, he]
    rfl
  unfold commit
  split
  · exact ⟨_, rfl⟩
  · exact ⟨e, by rw [hmap]⟩

end Memory

/-- Filling in the branches at `sites` turns the code `old`, which starts at `base`, into `new`.
The opcodes may be read from an image in which other branches are still open. -/
structure Resolves (base : Nat) (sites : List Nat) (target : Nat) (old new : List Instr) :
    Prop where
  within : ∀ site ∈ sites, site + 2 ≤ base + sizeAll old
  size : sizeAll new = sizeAll old
  foldl_redirect : ∀ front front' back back' : List UInt8,
    front.length = base → front'.length = base →
    sites.foldl (redirect (front' ++ bytesAll old ++ back') target)
        (front ++ bytesAll old ++ back) =
      front ++ bytesAll new ++ back

namespace Resolves
variable {base middle target : Nat} {sites later : List Nat} {old new old' new' : List Instr}

theorem nil (base target : Nat) (code : List Instr) : Resolves base [] target code code where
  within := by simp
  size := rfl
  foldl_redirect := fun _ _ _ _ _ _ => rfl

theorem append (h : Resolves base sites target old new) (hmiddle : base + sizeAll old = middle)
    (h' : Resolves middle later target old' new') :
    Resolves base (sites ++ later) target (old ++ old') (new ++ new') where
  within := by
    intro site hsite
    rw [sizeAll_append]
    rcases List.mem_append.mp hsite with hsite | hsite
    · have := h.within site hsite
      omega
    · have := h'.within site hsite
      omega
  size := by rw [sizeAll_append, sizeAll_append, h.size, h'.size]
  foldl_redirect := by
    intro front front' back back' hf hf'
    have h₁ := h.foldl_redirect front front' (bytesAll old' ++ back) (bytesAll old' ++ back') hf hf'
    have h₂ := h'.foldl_redirect (front ++ bytesAll new) (front' ++ bytesAll old) back back'
      (by simp [hf, h.size, hmiddle]) (by simp [hf', hmiddle])
    simp only [bytesAll_append, List.append_assoc, List.foldl_append] at h₁ h₂ ⊢
    rw [h₁, h₂]

/-- The order in which the sites are filled in does not matter. -/
theorem append_swap (h : Resolves base sites target old new) (hmiddle : base + sizeAll old = middle)
    (h' : Resolves middle later target old' new') :
    Resolves base (later ++ sites) target (old ++ old') (new ++ new') where
  within := fun site hsite => (h.append hmiddle h').within site
    (List.mem_append.mpr (List.mem_append.mp hsite).symm)
  size := (h.append hmiddle h').size
  foldl_redirect := by
    intro front front' back back' hf hf'
    have h₁ := h'.foldl_redirect (front ++ bytesAll old) (front' ++ bytesAll old) back back'
      (by simp [hf, hmiddle]) (by simp [hf', hmiddle])
    have h₂ := h.foldl_redirect front front' (bytesAll new' ++ back) (bytesAll old' ++ back') hf hf'
    simp only [bytesAll_append, List.append_assoc, List.foldl_append] at h₁ h₂ ⊢
    rw [h₁, h₂]

/-- Code in front has no open branches of its own. -/
theorem prepend (code : List Instr) (hmiddle : base + sizeAll code = middle)
    (h : Resolves middle sites target old new) :
    Resolves base sites target (code ++ old) (code ++ new) :=
  (nil base target code).append hmiddle h

private theorem branch (opcode : UInt8) {b b' : Instr} (hsize : b.size = 2) (hsize' : b'.size = 2)
    (hb : b.bytes = Cell.bytes (opcode.toNat * 256))
    (hb' : b'.bytes = Cell.bytes (opcode.toNat * 256 + target)) (hfree : opcode.toNat % 16 = 0) :
    Resolves base [base] target [b] [b'] where
  within := by simp [hsize]
  size := by simp [hsize, hsize']
  foldl_redirect := by
    intro front front' back back' hf hf'
    have hop : branchOpcode ((front' ++ b.bytes ++ back')[base]?.getD 0) = opcode := by
      have hdiv : opcode.toNat * 256 / 256 = opcode.toNat := by omega
      have hget : (front' ++ b.bytes ++ back')[base]? = some opcode := by
        rw [List.append_assoc, List.getElem?_append_right (by omega), hb]
        simp [hf', Cell.bytes, hdiv]
      rw [hget]
      apply UInt8.toNat_inj.mp
      have := opcode.toNat_lt
      rw [Option.getD_some, branchOpcode, UInt8.toNat_mul, UInt8.toNat_div]
      change opcode.toNat / 16 * 16 % 256 = _
      omega
    have hlen : b.bytes.length = 2 := by rw [length_bytes, hsize]
    simp only [bytesAll_cons, bytesAll_nil, List.append_nil, List.foldl_cons, List.foldl_nil,
      redirect, hop, ← hb']
    rw [List.append_assoc front, List.take_left' hf, ← List.append_assoc front,
      List.drop_left' (by simp [hf, hlen])]

theorem jump : Resolves base [base] target [.jump 0] [.jump target] :=
  branch jumpOpcode rfl rfl (by simp [bytes]) rfl (by decide)

theorem jumpZero : Resolves base [base] target [.jumpZero 0] [.jumpZero target] :=
  branch jumpZeroOpcode rfl rfl (by simp [bytes]) rfl (by decide)

end Resolves

/-- A commit on code whose open branches are known leaves the code with these filled in, and its
own after it. -/
theorem Memory.commit_resolves {m : Memory} {older : List UInt8} {old new code : List Instr}
    {target : Nat} {sites : List Nat} (hm : m.allocated = older ++ bytesAll old)
    (h : Resolves older.length sites target old new) (hspace : sizeAll code ≤ m.unused)
    (htarget : sites ≠ [] → target ≤ maxTarget) :
    ∃ m', m.commit (bytesAll code) (Control.toward target sites) = .ok (m.here, m') ∧
      m'.size = m.size ∧ m'.allocated = older ++ bytesAll (new ++ code) := by
  have hhere : m.here = older.length + sizeAll old := by
    rw [← length_allocated, hm, List.length_append, length_bytesAll]
  obtain ⟨m', hcommit, hsize, halloc⟩ := commit_toward
    (fun site hsite => hhere ▸ h.within site hsite) (by rwa [length_bytesAll]) htarget
  refine ⟨m', hcommit, hsize, ?_⟩
  have hfold := h.foldl_redirect older older [] [] rfl rfl
  simp only [List.append_nil] at hfold
  rw [halloc, hm, hfold, bytesAll_append, List.append_assoc]

end ForthAssembler
