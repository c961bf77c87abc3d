import ForthAssembler.Proofs.Session.Completion
import ForthAssembler.Proofs.Session.Fed
import ForthAssembler.Proofs.Text.Lines

/-! Where no word is refused an input may be broken into lines in any way. -/
namespace ForthAssembler
open Text

namespace Session
variable {a : Assembler} {inComment : Bool} {lines : List (List UInt8)}

/-- Lines of which no word is refused are read as the one line of all their words. By induction on
the lines. -/
theorem readLines_eq_readWords (hvalid : ∀ line ∈ lines, (ofUtf8? line).isSome)
    (hplain : "\\" ∉ (readable lines).flatten)
    (haccepted : (∀ fed ∈ fedLines inComment lines a, Accepted fed) ∨
      ∀ fed ∈ fedWords inComment (readable lines).flatten a, Accepted fed) :
    readLines inComment lines a = readWords inComment (readable lines).flatten a ∧
      fedLines inComment lines a = fedWords inComment (readable lines).flatten a ∧
      (readLines inComment lines a).halt = none := by
  induction lines generalizing inComment a with
  | nil => exact ⟨rfl, rfl, rfl⟩
  | cons line rest ih =>
    obtain ⟨hline, hvalid⟩ := List.forall_mem_cons.mp hvalid
    obtain ⟨text, htext⟩ := Option.isSome_iff_exists.mp hline
    simp only [readable, htext, List.flatten_cons, List.mem_append, not_or] at hplain haccepted ⊢
    -- On either side the words of the first line are the first to be fed.
    have hfirst : ∀ fed ∈ fedWords inComment (words text) a, Accepted fed := by
      intro fed hfed
      rcases haccepted with hlines | hwords
      · refine hlines fed ?_
        simp only [fedLines, htext]
        exact List.mem_append_left _ hfed
      · exact hwords fed ((fedWords_prefix_append _ _ _ a).subset hfed)
    obtain ⟨hhalt, hread, hfed⟩ := readWords_append hplain.1 hfirst (readable rest).flatten
    have hlater : readLines inComment (line :: rest) a =
        (readWords inComment (words text) a).andThen
          (readLines (readWords inComment (words text) a).inComment rest
            (readWords inComment (words text) a).assembler) ∧
        fedLines inComment (line :: rest) a = fedWords inComment (words text) a ++
          fedLines (readWords inComment (words text) a).inComment rest
            (readWords inComment (words text) a).assembler := by
      simp only [readLines, fedLines, htext, hhalt, Option.isSome_none, Bool.false_eq_true,
        if_false]
      exact ⟨rfl, trivial⟩
    rw [hlater.1, hlater.2, hread, hfed]
    rw [hlater.2, hfed] at haccepted
    have hrest := haccepted.imp (fun h fed hfed => h fed (List.mem_append_right _ hfed))
      (fun h fed hfed => h fed (List.mem_append_right _ hfed))
    obtain ⟨hread', hfed', hhalt'⟩ := ih hvalid hplain.2 hrest
    exact ⟨by rw [hread'], by rw [hfed'], hhalt'⟩

/-- A run over lines of which no word is refused is one over a single line. -/
theorem run_eq_of_readLines {input : List UInt8} {words : List String}
    (hlines : readLines false (Text.lines input) a = readWords false words a)
    (hhalt : (readLines false (Text.lines input) a).halt = none) :
    run a input = (⟨greeting a, (readWords false words a).exchanges,
      (finish (readWords false words a).assembler).1,
      (finish (readWords false words a).assembler).2.1⟩,
      (finish (readWords false words a).assembler).2.2) := by
  rw [hlines] at hhalt
  unfold run
  simp only [hlines, hhalt]

/-- What words, aborts and the end of the input keep holds wherever a word is fed. -/
theorem Invariant.of_mem_fedWords {P : Assembler → Prop} (hP : Invariant False P) (h : P a)
    {words : List String} : ∀ fed ∈ fedWords inComment words a, P fed.1 := by
  induction words generalizing inComment a with
  | nil => simp [fedWords]
  | cons word rest ih =>
    rw [fedWords]
    split
    · exact ih h
    split
    · exact ih h
    split
    · simp
    · refine List.forall_mem_cons.mpr ⟨h, ?_⟩
      have hnext := hP.stops_feed h word
      split
      · rename_i heq
        rw [heq] at hnext
        exact ih hnext
      · simp

theorem Invariant.of_mem_fedLines {P : Assembler → Prop} (hP : Invariant False P) (h : P a) :
    ∀ fed ∈ fedLines inComment lines a, P fed.1 := by
  induction lines generalizing inComment a with
  | nil => simp [fedLines]
  | cons line rest ih =>
    rw [fedLines]
    split
    · simp
    · rename_i text _
      have hwords := hP.stops_readWords h inComment (words text)
      have hhalt := hP.halt_readWords h inComment (words text)
      rw [hhalt] at hwords
      simp only [hhalt, Option.isSome_none, Bool.false_eq_true, if_false]
      intro fed hfed
      rcases List.mem_append.mp hfed with hfed | hfed
      · exact hP.of_mem_fedWords h fed hfed
      · exact ih hwords fed hfed

/-- What is not refused is accepted, where no assertion fails. -/
theorem Invariant.accepted {P : Assembler → Prop} (hP : Invariant False P)
    {fed : Assembler × String} (h : P fed.1) (hfed : ¬ Refused fed) : Accepted fed := by
  obtain ⟨outcome, a', hrun, -⟩ | ⟨e, a', hrun, -⟩ | ⟨assertion, a', -, hfalse⟩ :=
    (hP.feed fed.1 fed.2 h).run_cases
  · exact ⟨outcome, a', hrun⟩
  · exact absurd ⟨e, a', hrun⟩ hfed
  · exact hfalse.elim

end Session
open Session

/-- Wherever regular operations lead, two inputs with the same words do the same, however these are
broken into lines, if no word of one of them is refused: the same is printed and handed over, and
the same state is left. All words are fed as if they stood on one line, comments and strings that go
on over the end of a line among them. -/
theorem Attains.run_eq_of_words {capacity : Capacity} {options : Options} {storage : Storage}
    {a : Assembler} (h : Attains Operation.Regular (.new capacity options storage) a)
    {input input' : List UInt8} {text text' : String} (htext : ofUtf8? input = some text)
    (htext' : ofUtf8? input' = some text') (hwords : words text' = words text)
    (hplain : "\\" ∉ words text)
    (haccepted : ∀ fed ∈ fedLines false (lines input) a, ¬ Refused fed) :
    run a input' = run a input ∧ (run a input).1.halt = none ∧
      (run a input).1.exchanges = (fedWords false (words text) a).map exchange := by
  have hsafe : Safe capacity a := h.safe (.new capacity options storage)
  have hsession : Invariant False (Safe capacity) := Safe.session capacity
  obtain ⟨hvalid, hflat⟩ := flatten_readable_lines htext
  obtain ⟨hvalid', hflat'⟩ := flatten_readable_lines htext'
  rw [hwords] at hflat'
  have hall : ∀ fed ∈ fedLines false (lines input) a, Accepted fed := fun fed hfed =>
    hsession.accepted (hsession.of_mem_fedLines hsafe fed hfed) (haccepted fed hfed)
  obtain ⟨hread, hfed, hhalt⟩ :=
    readLines_eq_readWords hvalid (by rwa [hflat]) (.inl hall)
  rw [hflat] at hread hfed
  have hall' : ∀ fed ∈ fedWords false (words text) a, Accepted fed := hfed ▸ hall
  obtain ⟨hread', -, hhalt'⟩ :=
    readLines_eq_readWords hvalid' (by rwa [hflat']) (.inr (by rwa [hflat']))
  rw [hflat'] at hread'
  have hrun := run_eq_of_readLines hread hhalt
  have hrun' := run_eq_of_readLines hread' hhalt'
  have hlast : Safe capacity (readWords false (words text) a).assembler := by
    have hstops := hsession.stops_readWords hsafe false (words text)
    rw [← hread, hhalt] at hstops
    rwa [hread] at hstops
  refine ⟨hrun'.trans hrun.symm, ?_, ?_⟩
  · rw [hrun]
    exact hlast.idle_finish.1
  · rw [hrun]
    exact exchanges_readWords false (words text) a

/-- A string and a comment, each over the end of a line or not. -/
theorem Attains.run_eq_of_words_string :
    let a : Assembler := .new ⟨32, by decide, by decide⟩ {} .empty
    let text := ": A .\" x\ny\" ( a\nb ) ;"
    let text' := ":\nA .\" x y\" ( a b ) ;"
    (∀ fed ∈ fedLines false (lines (utf8 text)) a, ¬ Refused fed) ∧
      run a (utf8 text') = run a (utf8 text) := by
  intro a text text'
  have hnext : ∀ fed ∈ fedLines false (lines (utf8 text)) a,
      (feed fed.1 fed.2).2.2 = .word := by
    decide +kernel
  have haccepted : ∀ fed ∈ fedLines false (lines (utf8 text)) a, ¬ Refused fed := fun fed hfed =>
    not_refused_of_next (hnext fed hfed)
  have hwords : words text' = words text := by decide +kernel
  have hplain : "\\" ∉ words text := by decide +kernel
  exact ⟨haccepted, (Attains.run_eq_of_words .refl (ofUtf8?_utf8 text) (ofUtf8?_utf8 text') hwords
    hplain haccepted).1⟩

end ForthAssembler
