import ForthAssembler.Proofs.Text.Lines
import ForthAssembler.Proofs.Text.Numerals
import ForthAssembler.Text.Hex

/-! Columns of hexadecimal text can be read back. -/
namespace ForthAssembler.Text

theorem toList_hexPadded (width n : Nat) :
    (hexPadded width n).toList =
      List.replicate (width - (Nat.toDigits 16 n).length) '0' ++ Nat.toDigits 16 n := by
  rw [hexPadded, String.toList_ofList, List.leftpad]

theorem length_hexPadded {width n : Nat} (hwidth : 0 < width) (h : n < 16 ^ width) :
    (hexPadded width n).toList.length = width := by
  have hdigits := (Nat.length_toDigits_le_iff (by decide) hwidth).mpr h
  rw [toList_hexPadded, List.length_append, List.length_replicate]
  exact Nat.sub_add_cancel hdigits

/-- Leading zeros are digits, and add nothing. -/
theorem Spells.zeros {radix number : Nat} {digits : List Char} (h : Spells radix digits number)
    (hradix : 0 < radix) (count : Nat) :
    Spells radix (List.replicate count '0' ++ digits) number := by
  obtain ⟨hne, values, hvalues, rfl⟩ := h
  have hzeros : List.Forall₂ (IsDigit radix) (List.replicate count '0')
      (List.replicate count 0) := by
    induction count with
    | zero => exact .nil
    | succ count ih => exact .cons ⟨hradix, .inl rfl⟩ ih
  refine ⟨List.append_ne_nil_of_right_ne_nil _ hne, List.replicate count 0 ++ values,
    List.rel_append hzeros hvalues, ?_⟩
  rw [List.reverse_append, List.reverse_replicate, Nat.ofDigits_append_replicate_zero]

theorem spells_hexPadded (width n : Nat) : Spells 16 (hexPadded width n).toList n := by
  rw [toList_hexPadded]
  exact (spells_toDigits (by decide) (by decide) n).zeros (by decide) _

theorem natural?_hexPadded (width n : Nat) : natural? 16 (hexPadded width n).toList = some n :=
  natural?_eq_some_iff.mpr (.bare (spells_hexPadded width n))

theorem Spells.not_blank {radix number : Nat} {digits : List Char}
    (h : Spells radix digits number) : ∀ c ∈ digits, isBlank c = false := by
  obtain ⟨-, values, hvalues, -⟩ := h
  induction hvalues with
  | nil => simp
  | cons hdigit _ ih =>
    have hc := hdigit.of_tables (P := fun c _ => isBlank c = false) (by decide +kernel)
    exact List.forall_mem_cons.mpr ⟨hc, ih⟩

/-- A word that stands alone. -/
theorem words_singleton {word : List Char} (hne : word ≠ [])
    (hword : ∀ c ∈ word, isBlank c = false) :
    words (String.ofList word) = [String.ofList word] := by
  rw [words, String.toList_ofList, List.splitOnP_eq_singleton hword, List.filter_cons_of_pos]
  · rfl
  · simpa using hne

theorem words_replicate (count : Nat) : words (String.ofList (List.replicate count ' ')) = [] := by
  induction count with
  | zero => rfl
  | succ count ih => exact (words_append rfl [] _).trans ih

/-- Words that are separated and followed by spaces are read back. By induction on the words. -/
theorem words_intercalate {list : List String}
    (hlist : ∀ word ∈ list, word.toList ≠ [] ∧ ∀ c ∈ word.toList, isBlank c = false) (count : Nat) :
    words (String.ofList ((" ".intercalate list).toList ++ List.replicate count ' ')) = list := by
  induction list with
  | nil => exact words_replicate count
  | cons word list ih =>
    obtain ⟨⟨hne, hword⟩, hrest⟩ := List.forall_mem_cons.mp hlist
    have hsingle := words_singleton hne hword
    rw [String.ofList_toList] at hsingle
    by_cases hlast : list = []
    · subst hlast
      rw [String.intercalate_singleton]
      cases count with
      | zero => rw [List.replicate_zero, List.append_nil, String.ofList_toList, hsingle]
      | succ count =>
        rw [List.replicate_succ, words_append rfl, String.ofList_toList, hsingle, words_replicate]
        rfl
    · rw [String.intercalate_cons_of_ne_nil hlast, String.toList_append, String.toList_append,
        List.append_assoc, List.append_assoc]
      show words (String.ofList (word.toList ++ ' ' ::
        ((" ".intercalate list).toList ++ List.replicate count ' '))) = _
      rw [words_append rfl, String.ofList_toList, hsingle, ih hrest]
      rfl

/-- What is read from each element of a list is read from the list. -/
theorem mapM_map_eq_some {α β γ : Type} {f : α → β} {g : β → Option γ} {k : α → γ} {list : List α}
    (h : ∀ x ∈ list, g (f x) = some (k x)) : (list.map f).mapM g = some (list.map k) := by
  induction list with
  | nil => rfl
  | cons x list ih =>
    obtain ⟨hx, hrest⟩ := List.forall_mem_cons.mp h
    rw [List.map_cons, List.mapM_cons, hx, ih hrest]
    rfl

end ForthAssembler.Text
