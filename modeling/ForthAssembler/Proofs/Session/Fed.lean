import ForthAssembler.Proofs.Session.Runs

/-! The words that a session feeds. While none of them is refused it does not matter how the words
are split into lines. -/
namespace ForthAssembler.Session
open Text

/-- The word is accepted in the state before it. -/
def Accepted (fed : Assembler × String) : Prop :=
  ∃ outcome a', (Action.feed fed.2).run fed.1 = .ok outcome a'

/-- The word is refused in the state before it. -/
def Refused (fed : Assembler × String) : Prop :=
  ∃ e a', (Action.feed fed.2).run fed.1 = .error (.refused e) a'

/-- What comes of feeding a word. -/
def exchange (fed : Assembler × String) : Exchange := (feed fed.1 fed.2).1

variable {a : Assembler} {word : String} {inComment : Bool} {words later : List String}

theorem feed_of_accepted (h : Accepted (a, word)) :
    ∃ a', feed a word = (exchange (a, word), a', .word) := by
  obtain ⟨outcome, a', hrun⟩ := h
  refine ⟨a', ?_⟩
  simp only [exchange, feed, hrun]

theorem not_accepted_of_error {halt : Halt} {a' : Assembler}
    (hrun : (Action.feed word).run a = .error halt a') : ¬ Accepted (a, word) := by
  rintro ⟨outcome, b, hok⟩
  rw [hrun] at hok
  cases hok

theorem not_accepted_of_refused (h : Refused (a, word)) : ¬ Accepted (a, word) := by
  obtain ⟨e, a', hrun⟩ := h
  exact not_accepted_of_error hrun

theorem not_refused_of_next {fed : Assembler × String} (h : (feed fed.1 fed.2).2.2 = .word) :
    ¬ Refused fed := by
  rintro ⟨e, a', hrun⟩
  simp only [feed, hrun] at h
  split at h <;> simp at h

/-- A transcript tells of the words that are fed, and of no others. -/
theorem exchanges_readWords (inComment : Bool) (words : List String) (a : Assembler) :
    (readWords inComment words a).exchanges = (fedWords inComment words a).map exchange := by
  induction words generalizing inComment a with
  | nil => rfl
  | cons word rest ih =>
    rw [readWords, fedWords]
    split
    · exact ih _ a
    split
    · exact ih _ a
    split
    · rfl
    · rcases hfeed : feed a word with ⟨e, a', next⟩
      have hexchange : exchange (a, word) = e := by rw [exchange, hfeed]
      cases next with
      | word => simp only [List.map_cons, hexchange, ih false a']
      | line => simp only [List.map_cons, List.map_nil, hexchange]
      | stop halt => simp only [List.map_cons, List.map_nil, hexchange]

theorem exchanges_readLines (inComment : Bool) (lines : List (List UInt8)) (a : Assembler) :
    (readLines inComment lines a).exchanges = (fedLines inComment lines a).map exchange := by
  induction lines generalizing inComment a with
  | nil => rfl
  | cons line rest ih =>
    cases htext : ofUtf8? line with
    | none => simp only [readLines, fedLines, htext, List.map_nil]
    | some text =>
      have hwords := exchanges_readWords inComment (Text.words text) a
      simp only [readLines, fedLines, htext]
      split
      · rw [hwords, List.append_nil]
      · rw [List.map_append, ← hwords, ← ih]

theorem exchanges_run (a : Assembler) (input : List UInt8) :
    (run a input).1.exchanges = (fedLines false (lines input) a).map exchange := by
  rw [← exchanges_readLines]
  unfold run
  dsimp only
  split <;> rfl

/-- What is fed of the first words does not depend on the others. -/
theorem fedWords_prefix_append (inComment : Bool) (words later : List String) (a : Assembler) :
    fedWords inComment words a <+: fedWords inComment (words ++ later) a := by
  induction words generalizing inComment a with
  | nil => exact List.nil_prefix
  | cons word rest ih =>
    rw [List.cons_append, fedWords, fedWords]
    split
    · exact ih _ a
    split
    · exact ih _ a
    split
    · exact List.nil_prefix
    · rw [List.prefix_cons_inj]
      split
      · exact ih false _
      · exact List.prefix_rfl

/-- Reading that goes on where some has come to. -/
def Progress.andThen (p q : Progress) : Progress :=
  { q with exchanges := p.exchanges ++ q.exchanges }

/-- Reading goes on behind words of which none is refused. By induction on these. -/
theorem readWords_append (hplain : "\\" ∉ words)
    (haccepted : ∀ fed ∈ fedWords inComment words a, Accepted fed) (later : List String) :
    let p := readWords inComment words a
    p.halt = none ∧
      readWords inComment (words ++ later) a =
        p.andThen (readWords p.inComment later p.assembler) ∧
      fedWords inComment (words ++ later) a =
        fedWords inComment words a ++ fedWords p.inComment later p.assembler := by
  induction words generalizing inComment a with
  | nil => exact ⟨rfl, rfl, rfl⟩
  | cons word rest ih =>
    obtain ⟨hword, hrest⟩ := not_or.mp (mt List.mem_cons.mpr hplain)
    rw [fedWords] at haccepted
    simp only [List.cons_append, readWords, fedWords]
    split
    · rename_i hcomment
      rw [if_pos hcomment] at haccepted
      exact ih hrest haccepted
    rename_i hcomment
    rw [if_neg hcomment] at haccepted
    split
    · rename_i hopen
      rw [if_pos hopen] at haccepted
      exact ih hrest haccepted
    rename_i hopen
    rw [if_neg hopen] at haccepted
    split
    · rename_i hline
      have hbackslash : word = "\\" := by simpa using (Bool.and_eq_true_iff.mp hline).2
      exact absurd hbackslash.symm hword
    rename_i hline
    rw [if_neg hline] at haccepted
    obtain ⟨hfirst, haccepted⟩ := List.forall_mem_cons.mp haccepted
    obtain ⟨a', hfeed⟩ := feed_of_accepted hfirst
    simp only [hfeed] at haccepted ⊢
    obtain ⟨hhalt, hread, hfed⟩ := ih hrest haccepted
    refine ⟨hhalt, ?_, ?_⟩
    · rw [hread]
      rfl
    · rw [hfed]
      rfl

end ForthAssembler.Session
