import ForthAssembler.Proofs.Text.Numerals
import ForthAssembler.Text.Hex
import ForthAssembler.Token.Number

/-! Number literals: which words are read as cells, and as which. -/
namespace ForthAssembler.Token
open Text

/-- A literal without a sign, and its value. -/
inductive Magnitude (radix : Nat) : List Char → Nat → Prop
  | decimal {text : List Char} {value : Nat} (h : Numeral 10 text value) :
      Magnitude radix ('#' :: text) value
  | hexadecimal {text : List Char} {value : Nat} (h : Numeral 16 text value) :
      Magnitude radix ('$' :: text) value
  | binary {text : List Char} {value : Nat} (h : Numeral 2 text value) :
      Magnitude radix ('%' :: text) value
  | character (c : Char) : Magnitude radix ['\x27', c, '\x27'] c.toNat
  | plain {text : List Char} {value : Nat} (h : Numeral radix text value) :
      Magnitude radix text value

/-- A literal, and the cell that it stands for: its value or the negated value, modulo 65536. -/
inductive Literal (radix : Nat) : List Char → Int16 → Prop
  | positive {text : List Char} {value : Nat} (h : Magnitude radix text value)
      (hvalue : value ≤ 65535) : Literal radix text (Int16.ofInt value)
  | negative {text : List Char} {value : Nat} (h : Magnitude radix text value)
      (hvalue : value ≤ 32768) : Literal radix ('-' :: text) (Int16.ofInt (-value))

variable {radix : Nat} {text : List Char} {value : Nat}

theorem signed_eq_ofInt (n : Nat) : Cell.signed n = Int16.ofInt n := rfl

/-- The complement to 65536 is the negated cell. -/
theorem signed_sub_eq_ofInt {n : Nat} (h : n ≤ 65536) :
    Cell.signed (65536 - n) = Int16.ofInt (-n) := by
  rw [signed_eq_ofInt, Int.ofNat_sub h, Int.sub_eq_add_neg, Int16.ofInt_add]
  exact Int16.zero_add _

/-- Quotes and signs start no numeral. -/
theorem not_numeral {c : Char} {text : List Char} (hplus : c ≠ '+') (hc : c.isAlphanum = false) :
    ¬ Numeral radix (c :: text) value := by
  intro h
  rcases h.head with rfl | halphanum
  · exact hplus rfl
  · simp [hc] at halphanum

theorem magnitude?_eq_some_iff :
    magnitude? radix text = some value ↔ Magnitude radix text value := by
  constructor
  · intro h
    unfold magnitude? at h
    split at h
    · exact .decimal (natural?_eq_some_iff.mp h)
    · exact .hexadecimal (natural?_eq_some_iff.mp h)
    · exact .binary (natural?_eq_some_iff.mp h)
    · cases h
      exact .character _
    · exact .plain (natural?_eq_some_iff.mp h)
  · intro h
    cases h with
    | decimal h => exact natural?_eq_some_iff.mpr h
    | hexadecimal h => exact natural?_eq_some_iff.mpr h
    | binary h => exact natural?_eq_some_iff.mpr h
    | character c => rfl
    | plain h =>
      unfold magnitude?
      split
      · exact absurd h (not_numeral (by decide) rfl)
      · exact absurd h (not_numeral (by decide) rfl)
      · exact absurd h (not_numeral (by decide) rfl)
      · exact absurd h (not_numeral (by decide) rfl)
      · exact natural?_eq_some_iff.mpr h

theorem not_magnitude_minus : ¬ Magnitude radix ('-' :: text) value := by
  intro h
  cases h with
  | plain h => exact not_numeral (by decide) rfl h

theorem not_magnitude_nil : ¬ Magnitude radix [] value := by
  intro h
  cases h with
  | plain h => exact not_numeral_nil h

theorem parseNumber?_eq_some_iff {word : String} {n : Int16} :
    parseNumber? radix word = some n ↔ Literal radix word.toList n := by
  unfold parseNumber?
  split
  · rename_i c rest heq
    rw [heq]
    simp only [Option.bind_eq_bind, Option.bind_eq_some_iff, Option.ite_none_right_eq_some,
      Option.some.injEq, magnitude?_eq_some_iff]
    constructor
    · rintro ⟨value, hvalue, hle, rfl⟩
      rw [signed_sub_eq_ofInt (by omega)]
      exact .negative hvalue hle
    · intro h
      cases h with
      | positive h => exact absurd h not_magnitude_minus
      | negative h hle => exact ⟨_, h, hle, signed_sub_eq_ofInt (by omega)⟩
  · rename_i hsign
    simp only [Option.bind_eq_bind, Option.bind_eq_some_iff, Option.ite_none_right_eq_some,
      Option.some.injEq, magnitude?_eq_some_iff]
    constructor
    · rintro ⟨value, hvalue, hle, rfl⟩
      exact .positive hvalue hle
    · intro h
      generalize word.toList = text at h hsign
      cases h with
      | positive h hle => exact ⟨_, h, hle, rfl⟩
      | @negative text _ h =>
        cases text with
        | nil => exact absurd h not_magnitude_nil
        | cons c rest => exact absurd rfl (hsign c rest)

/-- A cell is printed as a literal that stands for it. -/
theorem literal_toString (n : Int16) : Literal 10 (toString n).toList n := by
  have hlow : -32768 ≤ n.toInt := n.le_toInt
  have hhigh : n.toInt < 32768 := n.toInt_lt
  have hcell : Int16.ofInt n.toInt = n := n.ofInt_toInt
  have hdigits (m : Nat) : Magnitude 10 (Nat.toDigits 10 m) m :=
    .plain (.bare (spells_toDigits (by decide) (by decide) m))
  change Literal 10 n.toInt.repr.toList n
  cases h : n.toInt with
  | ofNat m =>
    rw [h, Int.ofNat_eq_natCast] at hcell hhigh
    rw [← hcell, Int.repr, Nat.repr, String.toList_ofList]
    exact .positive (hdigits m) (by omega)
  | negSucc m =>
    rw [h, Int.negSucc_eq, ← Nat.cast_succ] at hcell hlow
    have hspelled : ("-" ++ Nat.repr (m + 1)).toList = '-' :: Nat.toDigits 10 (m + 1) := by
      simp [Nat.repr]
    rw [← hcell, Int.repr, hspelled]
    exact .negative (hdigits (m + 1)) (by omega)

theorem literal_of_spells {digits : List Char} {n : Int16}
    (h : Spells 16 digits (Cell.unsigned n)) : Literal radix ('$' :: digits) n := by
  have hcell : Int16.ofInt (Cell.unsigned n) = n := Cell.signed_unsigned n
  have hpositive : Literal radix ('$' :: digits) (Int16.ofInt (Cell.unsigned n)) :=
    .positive (.hexadecimal (.bare h)) (Nat.le_of_lt_succ (Cell.unsigned_lt n))
  rwa [hcell] at hpositive

/-- Words are read as cells if they are literals, and only then. Among these are the decimal form
of each cell, and its hexadecimal digits in either case. -/
theorem literal_grammar (radix : Nat) (word : String) (n : Int16) :
    (parseNumber? radix word = some n ↔ Literal radix word.toList n) ∧
      parseNumber? 10 (toString n) = some n ∧
      parseNumber? radix ("$" ++ hex (Cell.unsigned n)) = some n ∧
      parseNumber? radix ("$" ++ (hex (Cell.unsigned n)).toUpper) = some n := by
  have hspells : Spells 16 (hex (Cell.unsigned n)).toList (Cell.unsigned n) := by
    rw [hex, String.toList_ofList]
    exact spells_toDigits (by decide) (by decide) _
  have hupper : Spells 16 (hex (Cell.unsigned n)).toUpper.toList (Cell.unsigned n) := by
    rw [String.toUpper, String.toList_map]
    exact hspells.toUpper
  simp only [parseNumber?_eq_some_iff, String.toList_append]
  exact ⟨trivial, literal_toString n, literal_of_spells hspells, literal_of_spells hupper⟩

/-- Extremes of the two signs, and signs without digits. -/
example : ["-$8000", "-$8001", "$+00FFFF", "65536", "-", "--5"].map (parseNumber? 10) =
    [some (-32768), none, some (-1), none, none, none] := by
  decide +kernel

end ForthAssembler.Token
