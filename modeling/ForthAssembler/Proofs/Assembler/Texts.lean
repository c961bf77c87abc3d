import Mathlib.Data.Nat.Find
import ForthAssembler.Proofs.Assembler.Patching

/-! Texts are collected word by word, and end at a word with a closing quote or at one that makes
them too long. -/
namespace ForthAssembler
open Instr Text

/-- A text has been begun, and these words of it have been taken. -/
def Assembler.collecting (a : Assembler) (words : List String) : Assembler :=
  { a with awaiting := .text (if words = [] then none else some (" ".intercalate words)) }

/-- One instruction has been appended, and nothing else has changed. -/
structure Assembler.Appends (a a' : Assembler) (instr : Instr) : Prop extends Extends a a' where
  frames : a'.frames = a.frames
  code : ∃ code, a'.dictionary.memory.allocated = a.dictionary.memory.allocated ++ code ∧
    decode? code = some (instr, [])

/-- A text goes on with a space and one more word. -/
theorem intercalate_append_singleton (words : List String) (word : String) :
    ((if words = [] then none else some (" ".intercalate words)).map (· ++ " ")).getD "" ++ word =
      " ".intercalate (words ++ [word]) := by
  split
  · rename_i hwords
    simp [hwords]
  · rename_i hwords
    rw [String.intercalate_append_of_ne_nil hwords (List.cons_ne_nil _ _),
      String.intercalate_singleton]
    rfl

theorem length_intercalate_le_append (words more : List String) :
    (utf8 (" ".intercalate words)).length ≤ (utf8 (" ".intercalate (words ++ more))).length := by
  by_cases hwords : words = []
  · simp [hwords, length_utf8]
  by_cases hmore : more = []
  · simp [hmore]
  rw [String.intercalate_append_of_ne_nil hwords hmore]
  simp only [length_utf8, String.utf8ByteSize_append]
  omega

/-- A text that is too long is so from some word on. -/
theorem exists_too_long {words : List String}
    (h : maxText < (utf8 (" ".intercalate words)).length) :
    ∃ k < words.length, (∀ j ≤ k, (utf8 (" ".intercalate (words.take j))).length ≤ maxText) ∧
      maxText < (utf8 (" ".intercalate (words.take (k + 1)))).length := by
  have hwords : maxText < (utf8 (" ".intercalate (words.take words.length))).length := by
    rwa [List.take_length]
  have hexists : ∃ n, maxText < (utf8 (" ".intercalate (words.take n))).length := ⟨_, hwords⟩
  have hspec := Nat.find_spec hexists
  have hle := Nat.find_min' hexists hwords
  cases hfind : Nat.find hexists with
  | zero =>
    rw [hfind] at hspec
    simp [length_utf8] at hspec
  | succ k =>
    refine ⟨k, by omega, fun j hj => Nat.not_lt.mp (Nat.find_min hexists (by omega)), ?_⟩
    rwa [hfind] at hspec

namespace Action
variable {a : Assembler} {words texts : List String} {word last : String}

theorem unquote?_eq_none (h : word.toList.getLast? ≠ some '"') : unquote? word = none := if_neg h

theorem unquote?_append_quote (word : String) : unquote? (word ++ "\"") = some word := by
  simp [unquote?]

theorem set_awaiting (hawaiting : a.awaiting = .nothing) (awaiting : Awaiting) :
    { { a with awaiting } with awaiting := .nothing } = a := by
  cases a
  simp_all

theorem run_feed_begin (hawaiting : a.awaiting = .nothing)
    (hword : a.classify word = .extended Extended.text.id) :
    (feed word).run a = .ok .done (a.collecting []) := by
  have hstate : { a with awaiting := .nothing } = a := set_awaiting hawaiting a.awaiting
  rw [feed, run_takeAwaiting_bind, hawaiting, hstate]
  dsimp only
  rw [run_get_bind, hword]
  cases a.mode with
  | compile => rfl
  | interpret => rfl

/-- The whole of what a word does while a text is collected. -/
theorem run_feed_collecting (hawaiting : a.awaiting = .nothing) (words : List String)
    (word : String) :
    (feed word).run (a.collecting words) =
      let text := " ".intercalate (words ++ [(unquote? word).getD word])
      if maxText < (utf8 text).length then
        .error (.refused (.fieldOverflow (utf8 text).length)) a
      else if (unquote? word).isNone then .ok .done (a.collecting (words ++ [word]))
      else if a.isCompiling then (emit [.text (utf8 text)] []).run a
      else .ok (.report text) a := by
  rw [feed, run_takeAwaiting_bind, Assembler.collecting, set_awaiting hawaiting]
  dsimp only
  rw [collect]
  simp only [intercalate_append_singleton]
  split
  · rfl
  · split
    · rename_i hnone
      rw [Option.isNone_iff_eq_none.mp hnone]
      change EStateM.Result.ok _ _ = _
      simp [Assembler.collecting]
    · change EStateM.run (if a.isCompiling then _ else _) a = _
      split <;> rfl

/-- A word without a quote is taken. -/
theorem run_feed_word (hawaiting : a.awaiting = .nothing) (hword : unquote? word = none)
    (hsize : (utf8 (" ".intercalate (words ++ [word]))).length ≤ maxText) :
    (feed word).run (a.collecting words) = .ok .done (a.collecting (words ++ [word])) := by
  simp only [run_feed_collecting hawaiting, hword, Option.getD_none, Option.isNone_none, if_true,
    if_neg (Nat.not_lt.mpr hsize)]

theorem run_mapM_cons {text : String} {b c : Assembler} {outcome : Outcome}
    {outcomes : List Outcome} (hfeed : (feed text).run a = .ok outcome b)
    (hrest : (texts.mapM feed).run b = .ok outcomes c) :
    ((text :: texts).mapM feed).run a = .ok (outcome :: outcomes) c := by
  simp only [EStateM.run] at hfeed hrest
  simp only [List.mapM_cons, EStateM.run, bind, EStateM.bind, hfeed, hrest]
  rfl

/-- All words but the last one are taken without further effect. -/
theorem run_mapM_collecting (hawaiting : a.awaiting = .nothing)
    (htexts : ∀ text ∈ texts, text.toList.getLast? ≠ some '"')
    (hsize : (utf8 (" ".intercalate (words ++ texts))).length ≤ maxText) :
    (texts.mapM feed).run (a.collecting words) =
      .ok (List.replicate texts.length .done) (a.collecting (words ++ texts)) := by
  induction texts generalizing words with
  | nil =>
    simp only [List.mapM_nil, List.append_nil, List.length_nil, List.replicate_zero]
    rfl
  | cons text rest ih =>
    rw [List.append_cons] at hsize ⊢
    have hstep : (feed text).run (a.collecting words) =
        .ok .done (a.collecting (words ++ [text])) :=
      run_feed_word hawaiting (unquote?_eq_none (htexts text List.mem_cons_self))
        (Nat.le_trans (length_intercalate_le_append (words ++ [text]) rest) hsize)
    have hrest := ih (fun t ht => htexts t (List.mem_cons_of_mem _ ht)) hsize
    exact run_mapM_cons hstep hrest

/-- A word that makes the text too long ends it, and nothing is compiled. -/
theorem run_feed_too_long (hawaiting : a.awaiting = .nothing)
    (hsize : maxText <
      (utf8 (" ".intercalate (words ++ [(unquote? word).getD word]))).length) :
    (feed word).run (a.collecting words) = .error (.refused (.fieldOverflow
      (utf8 (" ".intercalate (words ++ [(unquote? word).getD word]))).length)) a := by
  rw [run_feed_collecting hawaiting]
  exact if_pos hsize

/-- The word with the quote compiles the text, or gives it. -/
theorem run_feed_quoted (hawaiting : a.awaiting = .nothing)
    (hsize : (utf8 (" ".intercalate (words ++ [last]))).length ≤ maxText) :
    (feed (last ++ "\"")).run (a.collecting words) =
      if a.isCompiling then (emit [.text (utf8 (" ".intercalate (words ++ [last])))] []).run a
      else .ok (.report (" ".intercalate (words ++ [last]))) a := by
  simp only [run_feed_collecting hawaiting, unquote?_append_quote, Option.getD_some,
    Option.isNone_some, Bool.false_eq_true, if_false, if_neg (Nat.not_lt.mpr hsize)]

/-- A text that is compiled is one instruction, for which there must be space. -/
theorem ensures_emit_text {bytes : List UInt8} (hsize : bytes.length ≤ maxText) :
    (emit [.text bytes] []).Ensures
      (fun outcome a' => bytes.length + 2 ≤ a.dictionary.memory.unused ∧
        outcome = .compiled a.here a'.here ∧ a.Appends a' (.text bytes))
      (fun _ a' => a' = a ∧ a.dictionary.memory.unused < bytes.length + 2) a := by
  have hhere := a.dictionary.memory.here_add_unused
  have hlength := a.dictionary.memory.length_allocated
  have hencodable : ∀ i ∈ [Instr.text bytes], i.Encodable := by simpa [Instr.Encodable] using hsize
  have hcode : (Instr.text bytes).size = bytes.length + 2 := by
    simp only [Instr.size]
    omega
  have hrange : (emit [.text bytes] []).Meets
      (fun outcome a' => outcome = .compiled a.here a'.here) (fun _ _ => True) False a :=
    (@ensures_emit_toward a [.text bytes] 0 [] (by simp)).meets_ok fun _ _ h => h.2.2.2.1
  have halloc : a.dictionary.memory.allocated = a.dictionary.memory.allocated ++ bytesAll [] := by
    simp
  have hemit := ensures_emit [.text bytes] (a.dictionary.memory.here + (bytes.length + 2)) halloc
    (.nil _ _ _) (by simp [hlength, hcode])
  apply (hrange.and_ensures hemit).mono
  · intro outcome a' hpost
    obtain ⟨houtcome, hext, hframes, -, halloc⟩ := hpost
    refine ⟨?_, houtcome, hext, hframes, (Instr.text bytes).bytes, ?_, ?_⟩
    · have hhere' := a'.dictionary.memory.here_add_unused
      have hlength' := congrArg List.length halloc
      rw [hext.size] at hhere'
      simp only [Memory.length_allocated, List.nil_append, List.length_append, length_bytesAll,
        sizeAll_cons, sizeAll_nil, hcode] at hlength'
      omega
    · simpa using halloc
    · simpa using decode?_bytes (show (Instr.text bytes).Encodable from hsize) []
  · intro e a' hpost
    obtain ⟨-, rfl, hcase⟩ := hpost
    refine ⟨rfl, ?_⟩
    obtain hlt | ⟨hne, -⟩ | hnot := hcase
    · omega
    · exact absurd rfl hne
    · exact absurd hencodable hnot

/-- The word of a text that is fed at a place, and the part of the text up to there. -/
theorem exists_fed (htexts : ∀ text ∈ texts, text.toList.getLast? ≠ some '"') (last : String)
    {k : Nat} (hk : k ≤ texts.length) :
    ∃ word, (texts ++ [last ++ "\""])[k]? = some word ∧
      (texts ++ [last]).take (k + 1) = texts.take k ++ [(unquote? word).getD word] := by
  obtain hlt | rfl := Nat.lt_or_eq_of_le hk
  · refine ⟨texts[k], by rw [List.getElem?_append_left hlt, List.getElem?_eq_getElem hlt], ?_⟩
    have hnone := unquote?_eq_none (htexts _ (List.getElem_mem hlt))
    rw [List.take_append_of_le_length hlt, List.take_add_one, List.getElem?_eq_getElem hlt,
      Option.toList_some, hnone, Option.getD_none]
  · refine ⟨last ++ "\"", by simp, ?_⟩
    rw [unquote?_append_quote, Option.getD_some, List.take_length]
    exact List.take_of_length_le (by simp)

/-- A text of words that are fed one after another is compiled or given when its last word has been
fed, or refused at the first word that makes it too long. -/
theorem text_joined (hawaiting : a.awaiting = .nothing)
    (hword : a.classify word = .extended Extended.text.id)
    (htexts : ∀ text ∈ texts, text.toList.getLast? ≠ some '"') :
    let fed := texts ++ [last ++ "\""]
    let collected (k : Nat) := " ".intercalate ((texts ++ [last]).take k)
    let text := " ".intercalate (texts ++ [last])
    (feed word).run a = .ok .done (a.collecting []) ∧
    ((utf8 text).length ≤ maxText →
      (texts.mapM feed).run (a.collecting []) =
        .ok (List.replicate texts.length .done) (a.collecting texts) ∧
      (a.definition = none →
        (feed (last ++ "\"")).run (a.collecting texts) = .ok (.report text) a) ∧
      (a.definition ≠ none → (feed (last ++ "\"")).Ensures
        (fun outcome a' => (utf8 text).length + 2 ≤ a.dictionary.memory.unused ∧
          outcome = .compiled a.here a'.here ∧ a.Appends a' (.text (utf8 text)))
        (fun _ a' => a' = a ∧ a.dictionary.memory.unused < (utf8 text).length + 2)
        (a.collecting texts))) ∧
    (maxText < (utf8 text).length →
      ∃ k word, fed[k]? = some word ∧
        (∀ j ≤ k, (utf8 (collected j)).length ≤ maxText) ∧
        maxText < (utf8 (collected (k + 1))).length ∧
        ((fed.take k).mapM feed).run (a.collecting []) =
          .ok (List.replicate k .done) (a.collecting (fed.take k)) ∧
        (feed word).run (a.collecting (fed.take k)) =
          .error (.refused (.fieldOverflow (utf8 (collected (k + 1))).length)) a) := by
  intro fed collected text
  refine ⟨?_, fun hsize => ⟨?_, ?_, ?_⟩, fun hsize => ?_⟩
  · exact run_feed_begin hawaiting hword
  · exact run_mapM_collecting hawaiting htexts
      (Nat.le_trans (length_intercalate_le_append texts [last]) hsize)
  · intro hclosed
    rw [run_feed_quoted hawaiting hsize]
    simp [Assembler.isCompiling, hclosed, text]
  · intro hopen
    have hcompiling : a.isCompiling := Option.isSome_iff_ne_none.mpr hopen
    unfold Ensures
    rw [run_feed_quoted hawaiting hsize, if_pos hcompiling]
    exact ensures_emit_text hsize
  · obtain ⟨k, hk, hbefore, hlong⟩ := exists_too_long hsize
    have hle : k ≤ texts.length := by
      rw [List.length_append, List.length_singleton] at hk
      omega
    have htake (word : String) : (texts ++ [word]).take k = texts.take k :=
      List.take_append_of_le_length hle
    obtain ⟨next, hnext, hcollected⟩ := exists_fed htexts last hle
    refine ⟨k, next, hnext, hbefore, hlong, ?_, ?_⟩
    · have hmapM := @run_mapM_collecting a [] (texts.take k) hawaiting
        (fun t ht => htexts t (List.mem_of_mem_take ht))
        (by rw [List.nil_append, ← htake last]; exact hbefore k (Nat.le_refl k))
      rw [htake]
      simpa [hle] using hmapM
    · have hfed : fed.take k = texts.take k := htake _
      simp only [collected, hcollected, hfed] at hlong ⊢
      exact run_feed_too_long hawaiting hlong

/-- `." a b"`, which is given outside of a definition and compiled in one. -/
theorem text_joined_two :
    let a : Assembler := .new ⟨64, by decide, by decide⟩ {} .empty
    ((feed ".\"").run a = .ok .done (a.collecting []) ∧
      (["a"].mapM feed).run (a.collecting []) = .ok [.done] (a.collecting ["a"]) ∧
      (feed "b\"").run (a.collecting ["a"]) = .ok (.report "a b") a) ∧
    ∃ b c, (define "T").run a = .ok 0 b ∧ b.definition ≠ none ∧
      (feed ".\"").run b = .ok .done (b.collecting []) ∧
      (["a"].mapM feed).run (b.collecting []) = .ok [.done] (b.collecting ["a"]) ∧
      (feed "b\"").run (b.collecting ["a"]) = .ok (.compiled b.here c.here) c ∧
      b.Appends c (.text (utf8 "a b")) := by
  intro a
  constructor
  · have hword : a.classify ".\"" = .extended Extended.text.id := by decide +kernel
    obtain ⟨hbegin, hjoined, -⟩ := @text_joined a ["a"] ".\"" "b" rfl hword (by decide)
    obtain ⟨hfed, hreport, -⟩ := hjoined (by decide +kernel)
    exact ⟨hbegin, hfed, hreport rfl⟩
  · obtain ⟨b, hdefine, hawaiting, hopen, hword, hunused⟩ : ∃ b, (define "T").run a = .ok 0 b ∧
        b.awaiting = .nothing ∧ b.definition ≠ none ∧
        b.classify ".\"" = .extended Extended.text.id ∧ b.dictionary.memory.unused = 60 :=
      ⟨_, rfl, rfl, nofun, by decide +kernel, by decide +kernel⟩
    obtain ⟨hbegin, hjoined, -⟩ := @text_joined b ["a"] ".\"" "b" hawaiting hword (by decide)
    obtain ⟨hfed, -, hcompile⟩ := hjoined (by decide +kernel)
    obtain ⟨_, c, hrun, -, rfl, happends⟩ | ⟨_, _, -, -, hfull⟩ := (hcompile hopen).run_cases
    · exact ⟨b, c, hdefine, hopen, hbegin, hfed, hrun, happends⟩
    · -- Five bytes are needed.
      rw [hunused] at hfull
      exact absurd hfull (by decide +kernel)

end Action
end ForthAssembler
