import ForthAssembler.CommandLine.Size
import ForthAssembler.Proofs.Text.Lines
import ForthAssembler.Proofs.Text.Numerals

/-! Sizes on a command line: which texts are read as capacities, and as which. -/
namespace ForthAssembler.CommandLine
open Text

/-- A numeral, with a unit behind it or none, and the number of bytes that it stands for. -/
inductive Amount : List Char → Nat → Prop
  | plain {digits : List Char} {number : Nat} (h : Numeral 10 digits number) :
      Amount digits number
  | bytes {digits : List Char} {number : Nat} (h : Numeral 10 digits number) :
      Amount (digits ++ ['b']) number
  | kilobytes {digits : List Char} {number : Nat} (h : Numeral 10 digits number) :
      Amount (digits ++ ['k']) (number * 1024)

/-- A number of kilobytes that fits 64 bits, though its bytes do not. -/
def Overflows (text : List Char) : Prop :=
  ∃ digits number, text = digits ++ ['k'] ∧ Numeral 10 digits number ∧ number < 2 ^ 64 ∧
    2 ^ 64 ≤ number * 1024

section Number
variable {digits : List Char} {value number : Nat}

theorem le_foldl_digits (values : List Nat) (value : Nat) :
    value ≤ values.foldl (fun value digit => value * 10 + digit) value := by
  induction values generalizing value with
  | nil => exact Nat.le_refl value
  | cons digit values ih =>
    rw [List.foldl_cons]
    exact Nat.le_trans (by omega) (ih (value * 10 + digit))

theorem readDigits_nil (value : Nat) : readDigits value [] = .ok value := rfl

theorem readDigits_cons (value : Nat) (c : Char) (digits : List Char) :
    readDigits value (c :: digits) =
      match digit? 10 c with
      | none => .error .invalidDigit
      | some digit =>
        if value * 10 + digit < 2 ^ 64 then readDigits (value * 10 + digit) digits
        else .error .numberTooLarge := rfl

/-- The first digit is the one that is read. -/
theorem exists_forall₂_isDigit_cons {radix : Nat} {c : Char} {P : List Nat → Prop} :
    (∃ values, List.Forall₂ (IsDigit radix) (c :: digits) values ∧ P values) ↔
      ∃ digit, digit? radix c = some digit ∧
        ∃ values, List.Forall₂ (IsDigit radix) digits values ∧ P (digit :: values) := by
  simp only [List.forall₂_cons_left_iff, digit?_eq_some_iff]
  constructor
  · rintro ⟨_, ⟨digit, values, hdigit, hvalues, rfl⟩, hP⟩
    exact ⟨digit, hdigit, values, hvalues, hP⟩
  · rintro ⟨digit, hdigit, values, hvalues, hP⟩
    exact ⟨_, ⟨digit, values, hdigit, hvalues, rfl⟩, hP⟩

/-- The number only grows with each digit, so all digits are read if it fits 64 bits at the end. -/
theorem readDigits_eq_ok_iff (hvalue : value < 2 ^ 64) :
    readDigits value digits = .ok number ↔ number < 2 ^ 64 ∧ ∃ values,
      List.Forall₂ (IsDigit 10) digits values ∧
        number = values.foldl (fun value digit => value * 10 + digit) value := by
  induction digits generalizing value with
  | nil =>
    rw [readDigits_nil, Except.ok.injEq]
    constructor
    · rintro rfl
      exact ⟨hvalue, [], .nil, rfl⟩
    · rintro ⟨-, values, hvalues, rfl⟩
      cases hvalues
      rfl
  | cons c digits ih =>
    rw [readDigits_cons, exists_forall₂_isDigit_cons]
    cases digit? 10 c with
    | none => simp
    | some digit =>
      simp only [Option.some.injEq, exists_eq_left', List.foldl_cons]
      split
      · rename_i hlt
        exact ih hlt
      · rename_i hge
        refine ⟨nofun, ?_⟩
        rintro ⟨hlt, values, -, rfl⟩
        exact absurd (Nat.lt_of_le_of_lt (le_foldl_digits values _) hlt) hge

theorem readDigits_zero_eq_ok_iff (h : digits ≠ []) :
    readDigits 0 digits = .ok number ↔ Spells 10 digits number ∧ number < 2 ^ 64 := by
  have hfold (values : List Nat) : values.foldl (fun value digit => value * 10 + digit) 0 =
      Nat.ofDigits 10 values.reverse := ofDigits_eq 10 values
  simp only [readDigits_eq_ok_iff (Nat.two_pow_pos 64), hfold, Spells, ne_eq, h,
    not_false_eq_true, true_and]
  exact and_comm

theorem readNumber_eq_ok_iff :
    readNumber digits = .ok number ↔ Numeral 10 digits number ∧ number < 2 ^ 64 := by
  unfold readNumber
  split
  · simp [not_numeral_nil]
  · simp [numeral_plus_iff, Spells]
  · rename_i rest hrest
    have hne : rest ≠ [] := by
      rintro rfl
      exact hrest rfl
    rw [readDigits_zero_eq_ok_iff hne, numeral_plus_iff]
  · rename_i hnil _ hplus
    have hhead : digits.head? ≠ some '+' := fun hhead => hplus _ (List.eq_cons_of_mem_head? hhead)
    rw [readDigits_zero_eq_ok_iff hnil, numeral_iff hhead]

end Number

section Unit
variable {digits text : List Char} {number size : Nat}

theorem splitUnit_bytes (digits : List Char) : splitUnit (digits ++ ['b']) = (1, digits) := by
  simp [splitUnit]

theorem splitUnit_kilobytes (digits : List Char) :
    splitUnit (digits ++ ['k']) = (1024, digits) := by
  simp [splitUnit]

/-- A numeral ends with a digit, so it has no unit. -/
theorem splitUnit_numeral (h : Numeral 10 text number) : splitUnit text = (1, text) := by
  have hdigit := h.isDigit_of_mem_getLast?
  unfold splitUnit
  split
  · rename_i hlast
    exact absurd (hdigit 'b' hlast) (by decide)
  · rename_i hlast
    exact absurd (hdigit 'k' hlast) (by decide)
  · rfl

theorem amount_iff_splitUnit : Amount text size ↔ ∃ number,
    Numeral 10 (splitUnit text).2 number ∧ size = number * (splitUnit text).1 := by
  constructor
  · intro h
    cases h with
    | plain h =>
      rw [splitUnit_numeral h]
      exact ⟨size, h, (Nat.mul_one size).symm⟩
    | bytes h =>
      rw [splitUnit_bytes]
      exact ⟨size, h, (Nat.mul_one size).symm⟩
    | kilobytes h =>
      rw [splitUnit_kilobytes]
      exact ⟨_, h, rfl⟩
  · rintro ⟨number, h, rfl⟩
    unfold splitUnit at h ⊢
    split at h
    · rename_i hlast
      rw [Nat.mul_one]
      exact List.dropLast_append_getLast? 'b' hlast ▸ .bytes h
    · rename_i hlast
      exact List.dropLast_append_getLast? 'k' hlast ▸ .kilobytes h
    · rw [Nat.mul_one]
      exact .plain h

/-- Only a unit makes a number larger. -/
theorem overflows_iff_splitUnit : Overflows text ↔ ∃ number,
    Numeral 10 (splitUnit text).2 number ∧ number < 2 ^ 64 ∧
      2 ^ 64 ≤ number * (splitUnit text).1 := by
  constructor
  · rintro ⟨digits, number, rfl, h⟩
    rw [splitUnit_kilobytes]
    exact ⟨number, h⟩
  · rintro ⟨number, h, hlt, hle⟩
    unfold splitUnit at h hle
    split at h
    · rename_i hlast
      simp only [hlast] at hle
      omega
    · rename_i hlast
      simp only [hlast] at hle
      exact ⟨_, number, (List.dropLast_append_getLast? 'k' hlast).symm, h, hlt, hle⟩
    · simp only at hle
      omega

/-- A unit is a single byte, so the text is cut before its last byte as well. -/
theorem utf8_splitUnit {text : String} {c : Char} (h : c ∈ text.toList.getLast?)
    (hc : c = 'b' ∨ c = 'k') :
    utf8 (String.ofList (splitUnit text.toList).2) = (utf8 text).dropLast := by
  obtain ⟨digits, hdigits⟩ : ∃ digits, text.toList = digits ++ [c] :=
    ⟨_, (List.dropLast_append_getLast? c h).symm⟩
  have hsplit : (splitUnit text.toList).2 = digits := by
    rw [hdigits]
    rcases hc with rfl | rfl
    · rw [splitUnit_bytes]
    · rw [splitUnit_kilobytes]
  have htext : utf8 text = utf8 (String.ofList digits) ++ String.utf8EncodeChar c := by
    rw [← String.ofList_toList (s := text), hdigits, utf8_ofList, utf8_ofList,
      List.flatMap_append, List.flatMap_singleton]
  have hbyte : ∃ b, String.utf8EncodeChar c = [b] := by
    rcases hc with rfl | rfl
    · exact ⟨_, rfl⟩
    · exact ⟨_, rfl⟩
  obtain ⟨b, hb⟩ := hbyte
  rw [hsplit, htext, hb, List.dropLast_concat]

end Unit

section Capacity
variable {text : String} {number : Nat} {capacity : Capacity}

theorem readCapacity_of_error {fault : SizeFault}
    (h : readNumber (splitUnit text.toList).2 = .error fault) :
    ∃ fault, readCapacity text = .error (.refused fault) := by
  by_cases hempty : text.isEmpty
  · exact ⟨.empty, by simp only [readCapacity, hempty, if_true]; rfl⟩
  · refine ⟨fault, ?_⟩
    simp only [readCapacity, hempty, h]
    rfl

theorem readCapacity_of_ok (h : readNumber (splitUnit text.toList).2 = .ok number) :
    readCapacity text =
      if number * (splitUnit text.toList).1 < UInt64.size then
        match Capacity.ofNat? (number * (splitUnit text.toList).1) with
        | some capacity => .ok capacity
        | none => .error (.refused .outOfRange)
      else .error .overflow := by
  by_cases hempty : text.isEmpty
  · obtain rfl := String.isEmpty_iff.mp hempty
    cases h
  · simp only [readCapacity, hempty, Bool.false_eq_true, if_false, h, Except.mapError, multiply,
      bind, Except.bind]
    by_cases hfits : number * (splitUnit text.toList).1 < UInt64.size
    · rw [if_pos hfits, if_pos hfits]
      rfl
    · rw [if_neg hfits, if_neg hfits]

theorem readCapacity_eq_ok_iff :
    readCapacity text = .ok capacity ↔ Amount text.toList capacity.bytes := by
  rw [amount_iff_splitUnit]
  constructor
  · intro h
    cases hnumber : readNumber (splitUnit text.toList).2 with
    | error fault =>
      obtain ⟨_, hrefused⟩ := readCapacity_of_error hnumber
      cases hrefused.symm.trans h
    | ok number =>
      rw [readCapacity_of_ok hnumber] at h
      split at h
      · split at h
        · rename_i hcapacity
          cases h
          exact ⟨number, (readNumber_eq_ok_iff.mp hnumber).1,
            Capacity.ofNat?_eq_some_iff.mp hcapacity⟩
        · cases h
      · cases h
  · rintro ⟨number, hnumber, hbytes⟩
    -- A product that fits the memory has a factor that fits 64 bits.
    have hpos : 0 < number * (splitUnit text.toList).1 := hbytes ▸ capacity.pos
    have hle : number ≤ capacity.bytes := by
      rw [hbytes]
      exact Nat.le_mul_of_pos_right number (Nat.pos_of_mul_pos_left hpos)
    have hfits : capacity.bytes < UInt64.size := Nat.lt_of_le_of_lt capacity.le (by decide)
    have hread := readNumber_eq_ok_iff.mpr ⟨hnumber, Nat.lt_of_le_of_lt hle hfits⟩
    rw [readCapacity_of_ok hread, ← hbytes, if_pos hfits, Capacity.ofNat?_eq_some_iff.mpr rfl]

theorem readCapacity_eq_overflow_iff :
    readCapacity text = .error .overflow ↔ Overflows text.toList := by
  rw [overflows_iff_splitUnit]
  constructor
  · intro h
    cases hnumber : readNumber (splitUnit text.toList).2 with
    | error fault =>
      obtain ⟨_, hrefused⟩ := readCapacity_of_error hnumber
      cases hrefused.symm.trans h
    | ok number =>
      rw [readCapacity_of_ok hnumber] at h
      split at h
      · split at h <;> cases h
      · rename_i hge
        obtain ⟨hnumeral, hlt⟩ := readNumber_eq_ok_iff.mp hnumber
        exact ⟨number, hnumeral, hlt, Nat.le_of_not_lt hge⟩
  · rintro ⟨number, hnumeral, hlt, hle⟩
    have hoverflow : ¬ number * (splitUnit text.toList).1 < UInt64.size := Nat.not_lt.mpr hle
    rw [readCapacity_of_ok (readNumber_eq_ok_iff.mpr ⟨hnumeral, hlt⟩), if_neg hoverflow]

end Capacity

/-- A text is read as a capacity if it spells an amount of 1 to 4096 bytes. It is refused otherwise,
unless it spells a number of kilobytes that overflows 64 bits in bytes, at which reading stops. A
unit is told by its character and cut off by its byte; what is left is a text again. -/
theorem capacity_grammar (text : String) :
    (∀ size, (∃ capacity, readCapacity text = .ok capacity ∧ capacity.bytes = size) ↔
        Amount text.toList size ∧ 1 ≤ size ∧ size ≤ 4096) ∧
      (¬ Overflows text.toList →
        ((∃ fault, readCapacity text = .error (.refused fault)) ↔
          ¬ ∃ size, Amount text.toList size ∧ 1 ≤ size ∧ size ≤ 4096)) ∧
      (readCapacity text = .error .overflow ↔ Overflows text.toList) ∧
      (∀ capacity, readCapacity text = .ok capacity →
        Capacity.ofNat? capacity.bytes = some capacity ∧
          (Memory.blank capacity).size = capacity.bytes) ∧
      ∀ c ∈ text.toList.getLast?, c = 'b' ∨ c = 'k' →
        ofUtf8? (utf8 text).dropLast = some (String.ofList (splitUnit text.toList).2) := by
  have haccepted (size : Nat) : (∃ capacity, readCapacity text = .ok capacity ∧
      capacity.bytes = size) ↔ Amount text.toList size ∧ 1 ≤ size ∧ size ≤ 4096 := by
    constructor
    · rintro ⟨capacity, hread, rfl⟩
      exact ⟨readCapacity_eq_ok_iff.mp hread, capacity.pos, capacity.le⟩
    · rintro ⟨hamount, hpos, hle⟩
      exact ⟨⟨size, hpos, hle⟩, readCapacity_eq_ok_iff.mpr hamount, rfl⟩
  refine ⟨haccepted, ?_, readCapacity_eq_overflow_iff, ?_, ?_⟩
  · simp only [← haccepted, ← readCapacity_eq_overflow_iff]
    intro hfits
    cases hread : readCapacity text with
    | ok capacity => simp
    | error stop =>
      cases stop with
      | refused fault => simp
      | overflow => exact absurd hread hfits
  · intro capacity _
    exact ⟨Capacity.ofNat?_eq_some_iff.mpr rfl, by simp [Memory.size, Memory.blank]⟩
  · intro c hlast hc
    rw [← utf8_splitUnit hlast hc, ofUtf8?_utf8]

/-- A sign and a unit, and the largest size. -/
theorem capacity_grammar_signed :
    (∃ capacity, readCapacity "+4k" = .ok capacity ∧ capacity.bytes = 4096) ∧
      ofUtf8? (utf8 "+4k").dropLast = some "+4" := by
  have hfour : Spells 10 ['4'] 4 :=
    ⟨List.cons_ne_nil _ _, [4], .cons (digit?_eq_some_iff.mp rfl) .nil, rfl⟩
  have hamount : Amount "+4k".toList 4096 := .kilobytes (.plus hfour)
  obtain ⟨haccepted, -, -, -, hcut⟩ := capacity_grammar "+4k"
  exact ⟨(haccepted 4096).mpr ⟨hamount, by decide, by decide⟩, hcut 'k' rfl (.inr rfl)⟩

/-- Signs, units and digits out of place, and the ends of the range. -/
example : ["+4k", "0001b", "", "k", "1kk", "+", "++1", "-1", "1é", "1 k", "0", "4097"].map
    (fun text => (readCapacity text).toOption.map (·.bytes)) =
    [some 4096, some 1, none, none, none, none, none, none, none, none, none, none] := by
  decide +kernel

/-- Half of `2 ^ 55` kilobytes, and one more. -/
example : readCapacity "18014398509481983k" = .error (.refused .outOfRange) ∧
    readCapacity "18014398509481984k" = .error .overflow := by
  decide +kernel

end ForthAssembler.CommandLine
