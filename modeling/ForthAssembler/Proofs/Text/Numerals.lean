import ForthAssembler.Text.Digits
import Mathlib.Data.Nat.Digits.Defs
import Mathlib.Data.List.Forall2
import Mathlib.Data.List.Induction

/-! Numerals: which texts are read as numbers of a radix, and as which. -/
namespace ForthAssembler.Text

/-- The digits up to 35, the position of each its value. -/
def lowerDigits : List Char := "0123456789abcdefghijklmnopqrstuvwxyz".toList

def upperDigits : List Char := "0123456789ABCDEFGHIJKLMNOPQRSTUVWXYZ".toList

/-- The character is the digit of a radix with this value, in either case. -/
structure IsDigit (radix : Nat) (c : Char) (value : Nat) : Prop where
  lt : value < radix
  spelled : lowerDigits[value]? = some c ∨ upperDigits[value]? = some c

/-- One or more digits, the most significant first, and the number that they spell. -/
def Spells (radix : Nat) (digits : List Char) (number : Nat) : Prop :=
  digits ≠ [] ∧ ∃ values, List.Forall₂ (IsDigit radix) digits values ∧
    number = Nat.ofDigits radix values.reverse

/-- Digits after an optional `+`. -/
inductive Numeral (radix : Nat) : List Char → Nat → Prop
  | bare {digits : List Char} {number : Nat} (h : Spells radix digits number) :
      Numeral radix digits number
  | plus {digits : List Char} {number : Nat} (h : Spells radix digits number) :
      Numeral radix ('+' :: digits) number

section Digit
variable {radix value : Nat} {c : Char}

/-- What holds of each digit in the tables holds of every digit. -/
theorem IsDigit.of_tables {P : Char → Nat → Prop} (h : IsDigit radix c value)
    (htables : ∀ entry ∈ lowerDigits.zipIdx ++ upperDigits.zipIdx, P entry.1 entry.2) :
    P c value := by
  refine htables (c, value) ?_
  rw [List.mem_append, List.mem_zipIdx_iff_getElem?, List.mem_zipIdx_iff_getElem?]
  exact h.spelled

theorem IsDigit.isAlphanum (h : IsDigit radix c value) : c.isAlphanum :=
  h.of_tables (P := fun c _ => c.isAlphanum) (by decide +kernel)

theorem IsDigit.isDigit (h : IsDigit 10 c value) : c.isDigit :=
  h.of_tables (P := fun c value => value < 10 → c.isDigit) (by decide +kernel) h.lt

theorem IsDigit.toUpper (h : IsDigit radix c value) : IsDigit radix c.toUpper value :=
  ⟨h.lt, .inr (h.of_tables (P := fun c value => upperDigits[value]? = some c.toUpper)
    (by decide +kernel))⟩

/-- Where a table lists a range of characters in order, each is found by its distance from the
first. -/
theorem getElem?_of_range {table : List Char} {first last : Char} {k : Nat}
    (htable : ∀ i ≤ last.toNat - first.toNat,
      table[i + k]? = some (Char.ofNat (first.toNat + i)))
    (hfirst : first ≤ c) (hlast : c ≤ last) : table[c.toNat - first.toNat + k]? = some c := by
  have hfirst' : first.toNat ≤ c.toNat := hfirst
  have hlast' : c.toNat ≤ last.toNat := hlast
  rw [htable _ (by omega), Nat.add_sub_cancel' hfirst', Char.ofNat_toNat]

theorem isDigit_of_digit? (h : digit? radix c = some value) : IsDigit radix c value := by
  simp only [digit?, Option.ite_none_right_eq_some, Option.some.injEq] at h
  obtain ⟨hlt, rfl⟩ := h
  refine ⟨hlt, ?_⟩
  split_ifs at hlt ⊢ with hdecimal hlower hupper
  · exact .inl (getElem?_of_range (k := 0) (by decide +kernel) hdecimal.1 hdecimal.2)
  · exact .inl (getElem?_of_range (by decide +kernel) hlower.1 hlower.2)
  · exact .inr (getElem?_of_range (by decide +kernel) hupper.1 hupper.2)
  · exact absurd hlt (Nat.lt_irrefl radix)

/-- A digit is one of every radix above its value. -/
theorem digit?_of_lt (h : digit? 36 c = some value) (hlt : value < radix) :
    digit? radix c = some value := by
  simp only [digit?, Option.ite_none_right_eq_some, Option.some.injEq] at h ⊢
  split_ifs at h ⊢ with hdecimal hlower hupper
  · exact ⟨h.2 ▸ hlt, h.2⟩
  · exact ⟨h.2 ▸ hlt, h.2⟩
  · exact ⟨h.2 ▸ hlt, h.2⟩
  · exact absurd h.1 (Nat.lt_irrefl 36)

theorem digit?_eq_some_iff : digit? radix c = some value ↔ IsDigit radix c value := by
  refine ⟨isDigit_of_digit?, fun h => digit?_of_lt ?_ h.lt⟩
  exact h.of_tables (P := fun c value => digit? 36 c = some value) (by decide +kernel)

/-- The digits that numbers are printed with. -/
theorem isDigit_digitChar (h : value < radix) (hradix : radix ≤ 16) :
    IsDigit radix value.digitChar value := by
  refine ⟨h, .inl ?_⟩
  have htable : ∀ i < 16, lowerDigits[i]? = some i.digitChar := by decide +kernel
  exact htable value (Nat.lt_of_lt_of_le h hradix)

end Digit

section Numeral
variable {radix number : Nat} {digits text : List Char} {values : List Nat}

theorem mapM_digit?_eq_some_iff :
    digits.mapM (digit? radix) = some values ↔ List.Forall₂ (IsDigit radix) digits values := by
  induction digits generalizing values with
  | nil => simp [eq_comm]
  | cons c digits ih =>
    cases values with
    | nil => simp [Option.bind_eq_some_iff]
    | cons value values =>
      simp [Option.bind_eq_some_iff, ← digit?_eq_some_iff, ← ih]

theorem ofDigits_eq (radix : Nat) (values : List Nat) :
    ofDigits radix values = Nat.ofDigits radix values.reverse := by
  induction values using List.reverseRecOn with
  | nil => rfl
  | append_singleton values value ih =>
    rw [ofDigits, List.foldl_append, List.reverse_append, List.reverse_singleton,
      List.singleton_append, Nat.ofDigits_cons, ← ih]
    simp [ofDigits, Nat.mul_comm, Nat.add_comm]

theorem spells_iff : Spells radix digits number ↔
    (if digits.isEmpty then none else (digits.mapM (digit? radix)).map (ofDigits radix)) =
      some number := by
  cases digits with
  | nil => simp [Spells]
  | cons c digits =>
    simp only [Spells, List.isEmpty_cons, Bool.false_eq_true, if_false, Option.map_eq_some_iff,
      mapM_digit?_eq_some_iff, ofDigits_eq, ne_eq, reduceCtorEq, not_false_eq_true, true_and,
      eq_comm (a := number)]

theorem Spells.toUpper (h : Spells radix digits number) :
    Spells radix (digits.map Char.toUpper) number := by
  obtain ⟨hne, values, hvalues, rfl⟩ := h
  refine ⟨by simpa using hne, values, ?_, rfl⟩
  rw [List.forall₂_map_left_iff]
  exact hvalues.imp fun _ _ => IsDigit.toUpper

/-- Numbers are printed as numerals. By induction on the number, its last digit split off. -/
theorem spells_toDigits (hradix : 1 < radix) (hlimit : radix ≤ 16) (number : Nat) :
    Spells radix (Nat.toDigits radix number) number := by
  induction number using Nat.strongRecOn with
  | _ number ih =>
    rcases Nat.lt_or_ge number radix with hlt | hge
    · rw [Nat.toDigits_of_lt_base hlt]
      exact ⟨by simp, [number], .cons (isDigit_digitChar hlt hlimit) .nil, by simp⟩
    · obtain ⟨-, values, hvalues, hnumber⟩ :=
        ih (number / radix) (Nat.div_lt_self (by omega) hradix)
      rw [Nat.toDigits_of_base_le hradix hge]
      have hlast : IsDigit radix (number % radix).digitChar (number % radix) :=
        isDigit_digitChar (Nat.mod_lt _ (by omega)) hlimit
      refine ⟨by simp, values ++ [number % radix],
        List.rel_append hvalues (.cons hlast .nil), ?_⟩
      rw [List.reverse_append, List.reverse_singleton, List.singleton_append, Nat.ofDigits_cons,
        ← hnumber]
      exact (Nat.mod_add_div number radix).symm

theorem Spells.isDigit_of_mem (h : Spells 10 digits number) : ∀ c ∈ digits, c.isDigit := by
  obtain ⟨-, values, hvalues, -⟩ := h
  induction hvalues with
  | nil => exact List.forall_mem_nil _
  | cons hdigit _ ih => exact List.forall_mem_cons.mpr ⟨hdigit.isDigit, ih⟩

theorem Numeral.isDigit_of_mem_getLast? (h : Numeral 10 text number) :
    ∀ c ∈ text.getLast?, c.isDigit := by
  intro c hc
  cases h with
  | bare h => exact h.isDigit_of_mem c (List.mem_of_mem_getLast? hc)
  | @plus digits _ h =>
    rw [List.getLast?_cons_of_ne_nil h.1] at hc
    exact h.isDigit_of_mem c (List.mem_of_mem_getLast? hc)

theorem Numeral.head {c : Char} (h : Numeral radix (c :: text) number) :
    c = '+' ∨ c.isAlphanum := by
  cases h with
  | plus => exact .inl rfl
  | bare h =>
    obtain ⟨-, values, hvalues, -⟩ := h
    cases hvalues with
    | cons hc _ => exact .inr hc.isAlphanum

theorem not_numeral_nil : ¬ Numeral radix [] number := by
  intro h
  cases h with
  | bare h => exact h.1 rfl

theorem numeral_plus_iff : Numeral radix ('+' :: text) number ↔ Spells radix text number := by
  refine ⟨fun h => ?_, .plus⟩
  cases h with
  | plus h => exact h
  | bare h =>
    obtain ⟨-, values, hvalues, -⟩ := h
    cases hvalues with
    | cons hplus _ => simpa using hplus.isAlphanum

theorem numeral_iff (h : text.head? ≠ some '+') :
    Numeral radix text number ↔ Spells radix text number := by
  refine ⟨fun hnumeral => ?_, .bare⟩
  cases hnumeral with
  | bare h => exact h
  | plus => exact absurd rfl h

theorem natural?_eq_some_iff : natural? radix text = some number ↔ Numeral radix text number := by
  by_cases h : text.head? = some '+'
  · obtain ⟨rest, rfl⟩ : ∃ rest, text = '+' :: rest := ⟨_, List.eq_cons_of_mem_head? h⟩
    rw [numeral_plus_iff, spells_iff]
    rfl
  · rw [numeral_iff h, spells_iff, natural?, if_neg h]

end Numeral
end ForthAssembler.Text
