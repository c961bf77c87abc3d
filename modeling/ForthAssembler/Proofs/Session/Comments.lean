import Mathlib.Data.List.Forall2
import ForthAssembler.Proofs.Assembler.Quiet
import ForthAssembler.Proofs.Session.Fed
import ForthAssembler.Proofs.Text.Lines

/-! No word of a comment is fed, unless the word that opens the comment is dropped with its line. -/
namespace ForthAssembler
open Text

namespace Text

/-- Whether a comment is open behind a word: one runs from a word `(` to a word that ends in `)`. -/
def commented (inComment : Bool) (word : String) : Bool :=
  if inComment then word.toList.getLast? != some ')' else word == "("

/-- The words outside comments, and whether a comment is open behind them. -/
def outside (inComment : Bool) : List String → List String × Bool
  | [] => ([], inComment)
  | word :: rest =>
    let later := outside (commented inComment word) rest
    if inComment || word == "(" then later else (word :: later.1, later.2)

/-- The words outside comments of each line, and whether a comment is open behind it. -/
def outsides (inComment : Bool) : List (List String) → List (List String × Bool)
  | [] => []
  | line :: rest => outside inComment line :: outsides (outside inComment line).2 rest

end Text

namespace Session
variable {a : Assembler} {inComment : Bool} {words : List String} {lines : List (List UInt8)}

/-- The words of each line that are fed, each with the state before; none behind a failed
assertion. -/
def fedByLine (inComment : Bool) : List (List UInt8) → Assembler → List (List (Assembler × String))
  | [], _ => []
  | line :: rest, a =>
    match ofUtf8? line with
    | none => []
    | some text =>
      let progress := readWords inComment (Text.words text) a
      fedWords inComment (Text.words text) a ::
        if progress.halt.isSome then (readable rest).map fun _ => []
        else fedByLine progress.inComment rest progress.assembler

theorem flatten_fedByLine (inComment : Bool) (lines : List (List UInt8)) (a : Assembler) :
    (fedByLine inComment lines a).flatten = fedLines inComment lines a := by
  induction lines generalizing inComment a with
  | nil => rfl
  | cons line rest ih =>
    cases htext : ofUtf8? line with
    | none => simp only [fedByLine, fedLines, htext, List.flatten_nil]
    | some text =>
      simp only [fedByLine, fedLines, htext, List.flatten_cons]
      split
      · simp
      · rw [ih]

/-- What comes of an unmarked word outside a string. -/
theorem feed_unmarked (hquiet : a.isCollecting = false) {word : String} (hword : Unmarked word) :
    (∃ b, feed a word = (exchange (a, word), b, .word) ∧ b.isCollecting = false) ∨
      (∃ b, feed a word = (exchange (a, word), b, .line) ∧ b.isCollecting = false ∧
        Refused (a, word)) ∨
      ∃ b halt, feed a word = (exchange (a, word), b, .stop halt) ∧ ¬ Accepted (a, word) := by
  obtain ⟨outcome, b, hrun, hb⟩ | ⟨e, b, hrun, hb⟩ | ⟨assertion, b, hrun, -⟩ :=
    (Action.quiet_feed hword hquiet).run_cases
  · exact .inl ⟨b, by simp only [exchange, feed, hrun], hb⟩
  · obtain ⟨_, c, hrun', hc⟩ | ⟨e', c, hrun', -⟩ | ⟨assertion, c, hrun', -⟩ :=
      (Action.does_abort (a := b)).accepts.run_cases
    · refine .inr (.inl ⟨c, by simp only [exchange, feed, hrun, hrun'], ?_, e, b, hrun⟩)
      rw [Assembler.isCollecting, hc.awaiting]
      rfl
    · refine .inr (.inr ⟨c, .refused e', ?_, not_accepted_of_error hrun⟩)
      simp only [exchange, feed, hrun, hrun']
    · refine .inr (.inr ⟨c, .violated assertion, ?_, not_accepted_of_error hrun⟩)
      simp only [exchange, feed, hrun, hrun']
  · refine .inr (.inr ⟨b, .violated assertion, ?_, not_accepted_of_error hrun⟩)
    simp only [exchange, feed, hrun]

/-- What is fed of a line are the first of its words outside comments, and all of them if all are
accepted. If one is refused no comment is taken to be open afterwards. By induction on the words. -/
theorem fedWords_outside (inComment : Bool) (hquiet : a.isCollecting = false)
    (hunmarked : ∀ word ∈ words, Unmarked word) :
    let p := readWords inComment words a
    let fed := fedWords inComment words a
    fed.map Prod.snd <+: (outside inComment words).1 ∧
      (p.halt = none → p.assembler.isCollecting = false ∧
        (p.inComment = (outside inComment words).2 ∨
          (∃ x ∈ fed, Refused x) ∧ p.inComment = false)) ∧
      ((∀ x ∈ fed, Accepted x) → p.halt = none ∧
        fed.map Prod.snd = (outside inComment words).1) := by
  induction words generalizing inComment a with
  | nil => exact ⟨List.prefix_rfl, fun _ => ⟨hquiet, .inl rfl⟩, fun _ => ⟨rfl, rfl⟩⟩
  | cons word rest ih =>
    obtain ⟨hword, hrest⟩ := List.forall_mem_cons.mp hunmarked
    simp only [readWords, fedWords, outside, commented]
    cases inComment with
    | true => exact ih _ hquiet hrest
    | false =>
      by_cases hopen : word = "("
      · simpa [hopen, hquiet] using ih true hquiet hrest
      have hopen' : (word == "(") = false := by simpa using hopen
      have hline : (word == "\\") = false := by simpa using hword.line
      simp only [hopen', hline, Bool.and_false, Bool.false_or, Bool.false_eq_true, if_false]
      have hfirst {fed : List (Assembler × String)} (hfed : ¬ Accepted (a, word)) :
          ¬ ∀ x ∈ (a, word) :: fed, Accepted x := fun h => hfed (h _ List.mem_cons_self)
      obtain ⟨b, hfeed, hb⟩ | ⟨b, hfeed, hb, hrefused⟩ | ⟨b, halt, hfeed, haccepted⟩ :=
        feed_unmarked hquiet hword
      · obtain ⟨hfront, hstate, hall⟩ := ih false hb hrest
        simp only [hfeed, List.map_cons]
        refine ⟨(List.prefix_cons_inj word).mpr hfront, fun hhalt => ?_, fun haccepted => ?_⟩
        · obtain ⟨hcollecting, hflag⟩ := hstate hhalt
          refine ⟨hcollecting, hflag.imp id ?_⟩
          rintro ⟨⟨x, hx, hrefused⟩, hflag⟩
          exact ⟨⟨x, List.mem_cons_of_mem _ hx, hrefused⟩, hflag⟩
        · obtain ⟨hhalt, hwords⟩ := hall fun x hx => haccepted x (List.mem_cons_of_mem _ hx)
          exact ⟨hhalt, by rw [hwords]⟩
      · simp only [hfeed, List.map_cons, List.map_nil]
        refine ⟨by simp, fun _ => ⟨hb, .inr ⟨⟨_, List.mem_cons_self, hrefused⟩, trivial⟩⟩,
          fun h => ?_⟩
        exact absurd h (hfirst (not_accepted_of_refused hrefused))
      · simp only [hfeed, List.map_cons, List.map_nil]
        exact ⟨by simp, by simp, fun h => absurd h (hfirst haccepted)⟩

/-- Behind a line with a refused word, whose rest is dropped, no comment is open. -/
def Contained (parts : List (List (Assembler × String))) (lines : List (List String × Bool)) :
    Prop :=
  List.Forall₂ (fun part line => (∃ fed ∈ part, Refused fed) → line.2 = false) parts lines

theorem forall₂_nil_outsides (inComment : Bool) (lines : List (List String)) :
    List.Forall₂ (fun part line => part.map Prod.snd <+: line.1)
      (lines.map fun _ => ([] : List (Assembler × String))) (outsides inComment lines) := by
  induction lines generalizing inComment with
  | nil => exact .nil
  | cons line rest ih => exact .cons List.nil_prefix (ih _)

/-- By induction on the lines. -/
theorem fedByLine_outsides (hquiet : a.isCollecting = false)
    (hunmarked : ∀ line ∈ readable lines, ∀ word ∈ line, Unmarked word)
    (hcontained : Contained (fedByLine inComment lines a) (outsides inComment (readable lines))) :
    List.Forall₂ (fun part line => part.map Prod.snd <+: line.1) (fedByLine inComment lines a)
      (outsides inComment (readable lines)) ∧
    ((∀ fed ∈ (fedByLine inComment lines a).flatten, Accepted fed) →
      (fedByLine inComment lines a).map (·.map Prod.snd) =
        (outsides inComment (readable lines)).map Prod.fst) := by
  induction lines generalizing inComment a with
  | nil => exact ⟨.nil, fun _ => rfl⟩
  | cons line rest ih =>
    cases htext : ofUtf8? line with
    | none =>
      simp only [fedByLine, readable, htext]
      exact ⟨.nil, fun _ => rfl⟩
    | some text =>
      simp only [readable, htext, List.forall_mem_cons] at hunmarked
      simp only [fedByLine, readable, htext, outsides, Contained, List.forall₂_cons] at hcontained ⊢
      obtain ⟨hfront, hstate, hall⟩ := fedWords_outside inComment hquiet hunmarked.1
      obtain ⟨hrefused, hcontained⟩ := hcontained
      cases hhalt : (readWords inComment (words text) a).halt with
      | some halt =>
        simp only [Option.isSome_some, if_true]
        refine ⟨⟨hfront, forall₂_nil_outsides _ _⟩, fun haccepted => ?_⟩
        have hnone := (hall fun fed hfed => haccepted fed ?_).1
        · rw [hhalt] at hnone
          cases hnone
        · rw [List.flatten_cons]
          exact List.mem_append_left _ hfed
      | none =>
        simp only [hhalt, Option.isSome_none, Bool.false_eq_true, if_false] at hcontained ⊢
        obtain ⟨hcollecting, hflag⟩ := hstate hhalt
        have hflag : (readWords inComment (words text) a).inComment =
            (outside inComment (words text)).2 := by
          rcases hflag with hflag | ⟨hfed, hflag⟩
          · exact hflag
          · rw [hflag, hrefused hfed]
        rw [← hflag] at hcontained ⊢
        obtain ⟨hparts, hrest⟩ := ih hcollecting hunmarked.2 hcontained
        refine ⟨⟨hfront, hparts⟩, fun haccepted => ?_⟩
        rw [List.flatten_cons, List.forall_mem_append] at haccepted
        rw [List.map_cons, List.map_cons, (hall haccepted.1).2, hrest haccepted.2]

end Session
open Session

/-- No word of a comment is fed, if no string is begun and no comment is opened by a word that is
dropped and goes on over the end of its line: of each line the words fed are the first outside
comments, and all of these if no word is refused. -/
theorem Session.fed_outside_comments {a : Assembler} (hquiet : a.isCollecting = false)
    {input : List UInt8} (hunmarked : ∀ line ∈ readable (lines input), ∀ word ∈ line, Unmarked word)
    (hcontained : Contained (fedByLine false (lines input) a)
      (outsides false (readable (lines input)))) :
    (run a input).1.exchanges = (fedByLine false (lines input) a).flatten.map exchange ∧
      List.Forall₂ (fun part line => part.map Prod.snd <+: line.1) (fedByLine false (lines input) a)
        (outsides false (readable (lines input))) ∧
      ((∀ fed ∈ (fedByLine false (lines input) a).flatten, Accepted fed) →
        (fedByLine false (lines input) a).map (·.map Prod.snd) =
          (outsides false (readable (lines input))).map Prod.fst) := by
  refine ⟨?_, fedByLine_outsides hquiet hunmarked hcontained⟩
  rw [flatten_fedByLine]
  exact exchanges_run a input

/-- A comment over the end of a line, and one that is dropped with its line. -/
theorem Session.fed_outside_comments_lines :
    let a : Assembler := .new ⟨32, by decide, by decide⟩ {} .empty
    let input := utf8 "VAR X ( a\nRESET ) 5\nFOO ( b ) RESET"
    Contained (fedByLine false (lines input) a) (outsides false (readable (lines input))) ∧
      List.Forall₂ (fun part line => part.map Prod.snd <+: line.1) (fedByLine false (lines input) a)
        [(["VAR", "X"], true), (["5"], false), (["FOO", "RESET"], false)] ∧
      (run a input).1.exchanges.map (·.word) = ["VAR", "X", "5", "FOO"] := by
  intro a input
  have hnext : List.Forall₂
      (fun part line => (∀ fed ∈ part, (feed fed.1 fed.2).2.2 = .word) ∨ line.2 = false)
      (fedByLine false (lines input) a) (outsides false (readable (lines input))) := by
    decide +kernel
  have hcontained : Contained (fedByLine false (lines input) a)
      (outsides false (readable (lines input))) := by
    refine hnext.imp ?_
    rintro part line (haccepted | hends) ⟨fed, hfed, hrefused⟩
    · exact absurd hrefused (not_refused_of_next (haccepted fed hfed))
    · exact hends
  have hquiet : a.isCollecting = false := rfl
  have hunmarked : ∀ line ∈ readable (lines input), ∀ word ∈ line, Unmarked word := by
    decide +kernel
  obtain ⟨-, hparts, -⟩ := Session.fed_outside_comments hquiet hunmarked hcontained
  exact ⟨hcontained, hparts, by decide +kernel⟩

/-- After a refused word the word that opens a comment is dropped with its line, and the words of
the comment on later lines are fed. -/
theorem Session.feeds_comment_of_refused :
    let a : Assembler := .new ⟨32, by decide, by decide⟩ {} .empty
    let input := utf8 "VAR X\nFOO ( a\nRESET )"
    a.isCollecting = false ∧ (∀ line ∈ readable (lines input), ∀ word ∈ line, Unmarked word) ∧
      (outsides false (readable (lines input))).map Prod.fst = [["VAR", "X"], ["FOO"], []] ∧
      (run a input).1.exchanges.map (·.word) = ["VAR", "X", "FOO", "RESET", ")"] ∧
      (run a input).2.here = 0 := by
  decide +kernel

end ForthAssembler
