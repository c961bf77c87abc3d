import ForthAssembler.Proofs.Text.Numerals
import ForthAssembler.Text.Case

/-! Texts that differ only in the case of ASCII letters: they match the same names, and their digits
are the same. -/
namespace ForthAssembler.Text

/-- The characters are equal, or one ASCII letter in its two cases. -/
def SameLetter (c d : Char) : Prop :=
  c = d ∨ ('A' ≤ c ∧ c ≤ 'Z' ∧ d.toNat = c.toNat + 32) ∨
    ('A' ≤ d ∧ d ≤ 'Z' ∧ c.toNat = d.toNat + 32)

/-- The texts differ at most in the case of ASCII letters. -/
abbrev Recased (s t : List Char) : Prop := List.Forall₂ SameLetter s t

theorem SameLetter.symm {c d : Char} (h : SameLetter c d) : SameLetter d c := by
  obtain rfl | h | h := h
  · exact .inl rfl
  · exact .inr (.inr h)
  · exact .inr (.inl h)

theorem toNat_toLower (c : Char) :
    c.toLower.toNat = if 'A' ≤ c ∧ c ≤ 'Z' then c.toNat + 32 else c.toNat := by
  unfold Char.toLower
  split_ifs with h h' h'
  · have hhigh : c.toNat ≤ 90 := h.2
    show (c.val + 32).toNat = c.toNat + 32
    rw [UInt32.toNat_add]
    exact Nat.mod_eq_of_lt (Nat.lt_of_le_of_lt (Nat.add_le_add_right hhigh 32) (by decide))
  · exact absurd h h'
  · exact absurd h' h
  · rfl

theorem toLower_eq_iff {c d : Char} : c.toLower = d.toLower ↔ SameLetter c d := by
  rw [← Char.toNat_inj, toNat_toLower, toNat_toLower, SameLetter, ← Char.toNat_inj]
  have hc : 'A' ≤ c ∧ c ≤ 'Z' ↔ 65 ≤ c.toNat ∧ c.toNat ≤ 90 := Iff.rfl
  have hd : 'A' ≤ d ∧ d ≤ 'Z' ↔ 65 ≤ d.toNat ∧ d.toNat ≤ 90 := Iff.rfl
  simp only [← and_assoc, hc, hd]
  split_ifs <;> omega

/-- The program compares names in lower case. -/
theorem sameName_iff {s t : String} : sameName true s t = true ↔ Recased s.toList t.toList := by
  simp only [sameName, if_true, beq_iff_eq, ← List.forall₂_eq_eq_eq, List.forall₂_map_left_iff,
    List.forall₂_map_right_iff, toLower_eq_iff]

theorem Recased.symm {s t : List Char} (h : Recased s t) : Recased t s :=
  (List.Forall₂.imp (fun _ _ => SameLetter.symm) h.flip)

/-- A name that matches one of the texts matches the other. -/
theorem Recased.sameName_eq {s t : String} (h : Recased s.toList t.toList) (name : String) :
    sameName true s name = sameName true t name := by
  have hlower : s.toList.map Char.toLower = t.toList.map Char.toLower := by
    simpa [sameName] using sameName_iff.mpr h
  simp only [sameName, if_true, hlower]

section Digits
variable {radix number : Nat} {s t : List Char}

/-- Other characters than letters are told apart. -/
theorem SameLetter.eq_of_lt {c d : Char} (h : SameLetter c d) (hc : c.toNat < 65) : d = c := by
  obtain rfl | ⟨hA, -, -⟩ | ⟨hA, -, hcase⟩ := h
  · rfl
  · exact absurd hc (Nat.not_lt.mpr hA)
  · have : 65 ≤ d.toNat := hA
    omega

theorem digit?_toLower (radix : Nat) (c : Char) : digit? radix c.toLower = digit? radix c := by
  have hlower := toNat_toLower c
  by_cases hletter : 'A' ≤ c ∧ c ≤ 'Z'
  · rw [if_pos hletter] at hlower
    have hA : 65 ≤ c.toNat := hletter.1
    have hZ : c.toNat ≤ 90 := hletter.2
    have hdecimal (d : Char) (h : 65 ≤ d.toNat) : ¬ ('0' ≤ d ∧ d ≤ '9') :=
      fun hd => absurd (Nat.le_trans h hd.2) (by decide)
    have hsmall : 'a' ≤ c.toLower ∧ c.toLower ≤ 'z' :=
      show 97 ≤ c.toLower.toNat ∧ c.toLower.toNat ≤ 122 by omega
    have hlarge : ¬ ('a' ≤ c ∧ c ≤ 'z') := fun hc => absurd (Nat.le_trans hc.1 hZ) (by decide)
    have hvalue : c.toLower.toNat - 'a'.toNat = c.toNat - 'A'.toNat :=
      show c.toLower.toNat - 97 = c.toNat - 65 by omega
    simp only [digit?, hdecimal c hA, hdecimal c.toLower (by omega), hsmall, hlarge, hletter,
      hvalue, and_self, if_true, if_false]
  · rw [if_neg hletter] at hlower
    rw [Char.toNat_inj.mp hlower]

/-- Such a character stands at the head of both texts. -/
theorem Recased.of_cons {c : Char} (h : Recased (c :: s) t) (hc : c.toNat < 65) :
    ∃ rest, t = c :: rest ∧ Recased s rest := by
  cases h with
  | cons hletter hrest => exact ⟨_, by rw [hletter.eq_of_lt hc], hrest⟩

theorem IsDigit.recased {c d : Char} {value : Nat} (h : IsDigit radix c value)
    (hcase : SameLetter c d) : IsDigit radix d value := by
  rw [← digit?_eq_some_iff, ← digit?_toLower] at h ⊢
  rwa [← toLower_eq_iff.mpr hcase]

theorem Spells.recased (h : Spells radix s number) (hcase : Recased s t) :
    Spells radix t number := by
  obtain ⟨hne, values, hvalues, hnumber⟩ := h
  refine ⟨?_, values, ?_, hnumber⟩
  · rintro rfl
    exact hne (List.forall₂_nil_right_iff.mp hcase)
  · clear hne hnumber
    induction hcase generalizing values with
    | nil => exact hvalues
    | cons hletter _ ih =>
      cases hvalues with
      | cons hdigit hrest => exact .cons (hdigit.recased hletter) (ih _ hrest)

theorem Numeral.recased (h : Numeral radix s number) (hcase : Recased s t) :
    Numeral radix t number := by
  cases h with
  | bare h => exact .bare (h.recased hcase)
  | plus h =>
    obtain ⟨rest, rfl, hrest⟩ := hcase.of_cons (by decide)
    exact .plus (h.recased hrest)

end Digits
end ForthAssembler.Text
