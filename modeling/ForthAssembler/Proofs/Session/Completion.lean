import ForthAssembler.Proofs.Session.Unfailing

/-! A session that comes to the end of its input leaves nothing open, whatever its words were. -/
namespace ForthAssembler
open Text

namespace Assembler

/-- Nothing is open, and the next word is taken for itself. -/
structure Idle (a : Assembler) : Prop where
  definition : a.definition = none
  mode : a.mode = .interpret
  frames : a.frames = []
  awaiting : a.awaiting = .nothing
  collecting : a.isCollecting = false

end Assembler

namespace Action
variable {a : Assembler}

theorem ensures_save_idle (h : a.Idle) (autorun : Bool) :
    (save autorun).Ensures (fun blob a' => a' = a ∧
      blob = Image.encode ⟨autorun, a.dictionary.head, a.dictionary.memory.allocated⟩)
      (fun _ _ => False) a := by
  simp [save, h.definition]

theorem meets_close_closed :
    close.Meets (fun _ a' => a'.definition = none) (fun _ _ => True) True a := by
  simp only [close, meets_bind, meets_get]
  split
  · simp only [emit, commit, meets_bind, meets_ofExcept, meets_get, meets_ofHalting,
      meets_setDictionary, meets_pure, meets_ofChecked, meets_modify, implies_true, and_true]
  · trivial

/-- At the end of the input the open definition, if any, is closed, or the end is refused. -/
theorem meets_finish_closed :
    finish.Meets (fun _ a' => a'.definition = none) (fun _ _ => True) True a := by
  rw [finish, meets_bind, meets_takeAwaiting]
  split
  · trivial
  · trivial
  · trivial
  · simp only [meets_bind, meets_get, meets_ite, meets_map, meets_pure]
    exact ⟨fun _ => meets_close_closed, fun hopen => by simpa [Assembler.isCompiling] using hopen⟩

end Action

namespace Session.Invariant
variable {P : Assembler → Prop} {a : Assembler}

/-- After a refusal the session goes on, since an abort is never refused. -/
theorem next_feed (hP : Invariant False P) (h : P a) (word : String) (halt : Halt) :
    (Session.feed a word).2.2 ≠ .stop halt := by
  obtain ⟨outcome, b, hrun, -⟩ | ⟨e, b, hrun, hb⟩ | ⟨assertion, b, hrun, hfalse⟩ :=
    (hP.feed a word h).run_cases
  · simp [Session.feed, hrun]
  · obtain ⟨_, c, hrun', -⟩ | ⟨_, c, hrun', -⟩ | ⟨_, c, -, hfalse⟩ := (hP.abort b hb).run_cases
    · simp [Session.feed, hrun, hrun']
    · obtain ⟨-, _, _, -, hviolated, -⟩ := Action.yields_abort.of_error hrun'
      cases hviolated
    · exact hfalse.elim
  · exact hfalse.elim

theorem halt_readWords (hP : Invariant False P) (h : P a) (inComment : Bool)
    (words : List String) : (readWords inComment words a).halt = none := by
  induction words generalizing inComment a with
  | nil => rfl
  | cons word rest ih =>
    rw [readWords]
    split
    · exact ih h _
    split
    · exact ih h _
    split
    · rfl
    · have hnext := hP.stops_feed h word
      split
      · rename_i heq
        rw [heq] at hnext
        exact ih hnext false
      · rfl
      · rename_i heq
        exact absurd (congrArg (·.2.2) heq) (hP.next_feed h word _)

/-- All lines are read, if all of them are text. -/
theorem halt_readLines (hP : Invariant False P) (h : P a) (inComment : Bool)
    {lines : List (List UInt8)} (hvalid : ∀ line ∈ lines, (ofUtf8? line).isSome) :
    (readLines inComment lines a).halt = none := by
  induction lines generalizing inComment a with
  | nil => rfl
  | cons line rest ih =>
    obtain ⟨hline, hrest⟩ := List.forall_mem_cons.mp hvalid
    obtain ⟨text, htext⟩ := Option.isSome_iff_exists.mp hline
    have hhalt := hP.halt_readWords h inComment (words text)
    have hwords := hP.stops_readWords h inComment (words text)
    rw [hhalt] at hwords
    simp only [readLines, htext, hhalt, Option.isSome_none, Bool.false_eq_true, if_false]
    exact ih hwords _ hrest

end Session.Invariant

/-- What cannot be closed at the end of the input is dropped. -/
theorem Safe.idle_finish {capacity : Capacity} {a : Assembler} (h : Safe capacity a) :
    (Session.finish a).2.1 = none ∧ (Session.finish a).2.2.Idle := by
  obtain ⟨outcome, b, hrun, hb⟩ | ⟨e, b, hrun, hb⟩ :=
    Action.Ensures.run_cases ((Safe.session capacity).finish a h)
  · have hclosed := Action.meets_finish_closed.of_ok hrun
    have hawaiting : b.awaiting = .nothing := (Action.does_finish.accepts.of_ok hrun).awaiting
    obtain ⟨hframes, -, hmode⟩ := hb.closed hclosed
    simp only [Session.finish, hrun]
    exact ⟨trivial, hclosed, hmode, hframes, hawaiting, by simp [Assembler.isCollecting, hawaiting]⟩
  · obtain ⟨_, c, hrun', d, -, rfl⟩ :=
      (Action.ensures_abort_revocable hb.toRevocable).exists_run
    simp only [Session.finish, hrun, hrun']
    exact ⟨trivial, rfl, rfl, rfl, rfl, rfl⟩

/-- Wherever regular operations lead, whatever they have loaded or left open, a session reads all of
an input whose lines are text, fails nothing, and leaves nothing open: the image can be saved, and
the next session finds no trace of an unfinished word. -/
theorem Attains.idle_of_session {capacity : Capacity} {options : Options} {storage : Storage}
    {a : Assembler} (h : Attains Operation.Regular (.new capacity options storage) a)
    {input : List UInt8} (hvalid : ∀ line ∈ lines input, (ofUtf8? line).isSome) :
    ∃ transcript a', (Action.session input).run a = .ok transcript a' ∧ transcript.halt = none ∧
      a'.Idle ∧ ∀ autorun, (Action.save autorun).run a' =
        .ok (Image.encode ⟨autorun, a'.dictionary.head, a'.dictionary.memory.allocated⟩) a' := by
  have hsafe : Safe capacity a := h.safe (.new capacity options storage)
  have hhalt := (Safe.session capacity).halt_readLines hsafe false hvalid
  have hlines := (Safe.session capacity).stops_readLines hsafe false (lines input)
  rw [hhalt] at hlines
  obtain ⟨hfinish, hidle⟩ := Safe.idle_finish hlines
  have hrun : (Session.run a input).1.halt = none ∧ (Session.run a input).2.Idle := by
    simp only [Session.run, hhalt]
    exact ⟨hfinish, hidle⟩
  refine ⟨(Session.run a input).1, (Session.run a input).2, ?_, hrun.1, hrun.2, fun autorun => ?_⟩
  · simp only [Action.session, EStateM.run, hrun.1]
  · obtain ⟨_, _, hsave, rfl, rfl⟩ := (Action.ensures_save_idle hrun.2 autorun).exists_run
    exact hsave

/-- A string that does not fit, a comment over two lines, and a definition without space for its
return. -/
theorem Attains.idle_of_session_unfinished :
    let s : Assembler := .new ⟨7, by decide, by decide⟩ {} .empty
    let a := Operation.settleAll [.define "A", .feed ".\""] s
    ∃ transcript a', (Action.session "x IF\" BEGIN\n( a\nb ) : B 1".toUTF8.toList).run a =
      .ok transcript a' ∧ a.isCollecting = true ∧ transcript.halt = none ∧ a'.Idle := by
  intro s a
  have h : Attains Operation.Regular s a :=
    .perform (.perform .refl trivial (by decide +kernel)) trivial (by decide +kernel)
  have hvalid : ∀ line ∈ lines "x IF\" BEGIN\n( a\nb ) : B 1".toUTF8.toList,
      (ofUtf8? line).isSome := by decide +kernel
  obtain ⟨transcript, a', hrun, hhalt, hidle, -⟩ := h.idle_of_session hvalid
  exact ⟨transcript, a', hrun, by decide +kernel, hhalt, hidle⟩

end ForthAssembler
