import ForthAssembler.Text.Words

/-! Lines of input and their words: the byte of a line feed stands for nothing else, so lines of
text are text, and their words are those of the whole. -/
namespace ForthAssembler.Text

/-- The words of each line, up to the first line that is no text. -/
def readable : List (List UInt8) → List (List String)
  | [] => []
  | line :: rest =>
    match ofUtf8? line with
    | none => []
    | some text => words text :: readable rest

theorem utf8_ofList (chars : List Char) :
    utf8 (String.ofList chars) = chars.flatMap String.utf8EncodeChar := by
  simp [utf8, List.utf8Encode]

theorem isBlank_lineFeed : isBlank '\n' = true := rfl

/-- Only a line feed is written with its byte. -/
theorem ne_of_mem_utf8EncodeChar {c : Char} (hc : c ≠ '\n') :
    ∀ b ∈ String.utf8EncodeChar c, (b == 10) = false := by
  have hvalue : c.val.toNat ≠ 10 := fun h => hc (Char.ext (UInt32.toNat_inj.mp h))
  have hmax : c.val.toNat < 1114112 := by
    have := c.valid
    rcases this with h | ⟨-, h⟩ <;> omega
  have hbyte {n : Nat} (h : n % 256 ≠ 10) : (UInt8.ofNat n == 10) = false := by
    rw [beq_eq_false_iff_ne]
    intro heq
    have hmod := congrArg UInt8.toNat heq
    rw [UInt8.toNat_ofNat'] at hmod
    exact h hmod
  unfold String.utf8EncodeChar
  dsimp only
  split
  · exact List.forall_mem_singleton.mpr (hbyte (by omega))
  split
  · simp only [List.mem_cons, List.not_mem_nil, or_false, forall_eq_or_imp, forall_eq]
    exact ⟨hbyte (by omega), hbyte (by omega)⟩
  split
  · simp only [List.mem_cons, List.not_mem_nil, or_false, forall_eq_or_imp, forall_eq]
    exact ⟨hbyte (by omega), hbyte (by omega), hbyte (by omega)⟩
  · simp only [List.mem_cons, List.not_mem_nil, or_false, forall_eq_or_imp, forall_eq]
    exact ⟨hbyte (by omega), hbyte (by omega), hbyte (by omega), hbyte (by omega)⟩

/-- A text without a line feed is one line. -/
theorem forall_mem_utf8_ne {chars : List Char} (h : '\n' ∉ chars) :
    ∀ b ∈ utf8 (String.ofList chars), (b == 10) = false := by
  rw [utf8_ofList]
  intro b hb
  obtain ⟨c, hc, hbc⟩ := List.mem_flatMap.mp hb
  exact ne_of_mem_utf8EncodeChar (fun heq => h (heq ▸ hc)) b hbc

/-- The first line, and what follows its line feed. -/
theorem lines_utf8_append {front : List Char} (h : '\n' ∉ front) (rest : List Char) :
    lines (utf8 (String.ofList (front ++ '\n' :: rest))) =
      utf8 (String.ofList front) :: lines (utf8 (String.ofList rest)) := by
  have hsplit : utf8 (String.ofList (front ++ '\n' :: rest)) =
      utf8 (String.ofList front) ++ 10 :: utf8 (String.ofList rest) := by
    simp only [utf8_ofList, List.flatMap_append, List.flatMap_cons]
    rfl
  rw [hsplit, lines, List.splitOnP_append_cons_of_forall_mem (forall_mem_utf8_ne h) 10 rfl]
  rfl

/-- A blank ends a word. -/
theorem words_append {c : Char} (hblank : isBlank c = true) (front rest : List Char) :
    words (String.ofList (front ++ c :: rest)) =
      words (String.ofList front) ++ words (String.ofList rest) := by
  simp only [words, String.toList_ofList]
  rw [List.splitOnP_append_cons front rest hblank, List.filter_append, List.map_append]

/-- All lines of a text are text, and have the words of the text. By induction on its length, one
line at a time. -/
theorem lines_utf8 (chars : List Char) :
    (∀ line ∈ lines (utf8 (String.ofList chars)), (ofUtf8? line).isSome) ∧
      (readable (lines (utf8 (String.ofList chars)))).flatten = words (String.ofList chars) := by
  induction hlength : chars.length using Nat.strongRecOn generalizing chars with
  | ind length ih =>
  by_cases hfeed : '\n' ∈ chars
  · obtain ⟨front, rest, rfl, hfront⟩ := List.eq_append_cons_of_mem hfeed
    have hshorter : rest.length < length := by
      rw [← hlength, List.length_append, List.length_cons]
      omega
    obtain ⟨htexts, hwords⟩ := ih rest.length hshorter rest rfl
    rw [lines_utf8_append hfront, words_append isBlank_lineFeed]
    constructor
    · rw [List.forall_mem_cons, ofUtf8?_utf8]
      exact ⟨rfl, htexts⟩
    · rw [readable, ofUtf8?_utf8]
      simp only [List.flatten_cons, hwords]
  · have hline : lines (utf8 (String.ofList chars)) = [utf8 (String.ofList chars)] :=
      List.splitOnP_eq_singleton (forall_mem_utf8_ne hfeed)
    rw [hline]
    constructor
    · rw [List.forall_mem_singleton, ofUtf8?_utf8]
      rfl
    · simp only [readable, ofUtf8?_utf8, List.flatten_cons, List.flatten_nil, List.append_nil]

/-- So it is for every input that is text. -/
theorem flatten_readable_lines {input : List UInt8} {text : String}
    (h : ofUtf8? input = some text) :
    (∀ line ∈ lines input, (ofUtf8? line).isSome) ∧
      (readable (lines input)).flatten = words text := by
  have hlines := lines_utf8 text.toList
  rw [String.ofList_toList, ← ofUtf8?_eq_some_iff.mp h] at hlines
  exact hlines

end ForthAssembler.Text
