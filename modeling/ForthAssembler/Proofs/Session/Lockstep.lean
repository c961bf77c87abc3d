import ForthAssembler.Proofs.Assembler.Blind
import ForthAssembler.Proofs.Session.Attains

/-! Assemblers that are alike give the same replies to the same operations, again and again. -/
namespace ForthAssembler
open Assembler

namespace Session

/-- Reading has come equally far, with assemblers that are alike. -/
structure Progress.Alike (stores : Prop) (p q : Progress) : Prop where
  assembler : p.assembler.Alike stores q.assembler
  inComment : p.inComment = q.inComment
  exchanges : p.exchanges = q.exchanges
  halt : p.halt = q.halt

variable {stores : Prop} {a b : Assembler}

theorem printed_alike (h : a.Alike stores b) (outcome : Outcome) :
    printed a outcome = printed b outcome := by
  cases outcome <;> simp only [printed, h.options trivial, h.dictionary.traceText]

theorem feed_alike (h : a.Alike stores b) {word : String} (huse : a.UsesStorage word → stores) :
    (feed a word).1 = (feed b word).1 ∧ (feed a word).2.1.Alike stores (feed b word).2.1 ∧
      (feed a word).2.2 = (feed b word).2.2 := by
  obtain ⟨v, _, a', b', hx, hy, rfl, h'⟩ | ⟨halt, a', b', hx, hy, h'⟩ :=
    (Action.couples_feed h huse fun _ => ⟨trivial, trivial⟩).run_cases
  · simp only [feed, hx, hy]
    exact ⟨by rw [printed_alike h'], h', trivial⟩
  · cases halt with
    | violated assertion =>
      simp only [feed, hx, hy]
      exact ⟨trivial, h', trivial⟩
    | refused e =>
      obtain ⟨_, _, a'', b'', hx', hy', -, h''⟩ | ⟨halt, a'', b'', hx', hy', h''⟩ :=
        (Action.blind_abort a' b' h').run_cases
      · simp only [feed, hx, hy, hx', hy']
        exact ⟨trivial, h'', trivial⟩
      · simp only [feed, hx, hy, hx', hy']
        exact ⟨trivial, h'', trivial⟩

theorem readWords_alike (h : a.Alike stores b) {inComment : Bool} {words : List String}
    (huse : ∀ fed ∈ fedWords inComment words a, fed.1.UsesStorage fed.2 → stores) :
    (readWords inComment words a).Alike stores (readWords inComment words b) := by
  induction words generalizing inComment a b with
  | nil => exact ⟨h, rfl, rfl, rfl⟩
  | cons word rest ih =>
    rw [fedWords] at huse
    rw [readWords, readWords, ← h.isCollecting]
    split
    · rename_i hcomment
      rw [if_pos hcomment] at huse
      exact ih h huse
    rename_i hcomment
    rw [if_neg hcomment] at huse
    split
    · rename_i hopen
      rw [if_pos hopen] at huse
      exact ih h huse
    rename_i hopen
    rw [if_neg hopen] at huse
    split
    · exact ⟨h, rfl, rfl, rfl⟩
    rename_i hrest
    rw [if_neg hrest] at huse
    obtain ⟨hexchange, h', hnext⟩ := feed_alike h (huse (a, word) List.mem_cons_self)
    rcases hx : feed a word with ⟨exchange, a', next⟩
    rcases hy : feed b word with ⟨_, b', _⟩
    rw [hx, hy] at hexchange h' hnext
    dsimp only at hexchange h' hnext
    subst hexchange hnext
    cases next with
    | word =>
      have hlater := ih h' fun fed hfed => huse fed (List.mem_cons_of_mem _ (by rwa [hx]))
      exact ⟨hlater.assembler, hlater.inComment, congrArg (exchange :: ·) hlater.exchanges,
        hlater.halt⟩
    | line => exact ⟨h', rfl, rfl, rfl⟩
    | stop halt => exact ⟨h', rfl, rfl, rfl⟩

theorem readLines_alike (h : a.Alike stores b) {inComment : Bool} {lines : List (List UInt8)}
    (huse : ∀ fed ∈ fedLines inComment lines a, fed.1.UsesStorage fed.2 → stores) :
    (readLines inComment lines a).Alike stores (readLines inComment lines b) := by
  induction lines generalizing inComment a b with
  | nil => exact ⟨h, rfl, rfl, rfl⟩
  | cons line rest ih =>
    rw [fedLines] at huse
    rw [readLines, readLines]
    split
    · exact ⟨h, rfl, rfl, rfl⟩
    · rename_i text hline
      simp only [hline, List.mem_append] at huse
      have hwords : (readWords inComment (Text.words text) a).Alike stores
          (readWords inComment (Text.words text) b) :=
        readWords_alike h fun fed hfed => huse fed (.inl hfed)
      dsimp only
      rw [← hwords.halt]
      split
      · exact hwords
      · rename_i hhalt
        simp only [if_neg hhalt] at huse
        rw [← hwords.inComment]
        have hlater := ih hwords.assembler fun fed hfed => huse fed (.inr hfed)
        exact ⟨hlater.assembler, hlater.inComment, by rw [hwords.exchanges, hlater.exchanges],
          hlater.halt⟩

theorem finish_alike (h : a.Alike stores b) :
    (finish a).1 = (finish b).1 ∧ (finish a).2.1 = (finish b).2.1 ∧
      (finish a).2.2.Alike stores (finish b).2.2 := by
  obtain ⟨v, _, a', b', hx, hy, rfl, h'⟩ | ⟨halt, a', b', hx, hy, h'⟩ :=
    (Action.blind_finish a b h).run_cases
  · simp only [finish, hx, hy]
    exact ⟨trivial, trivial, h'⟩
  · cases halt with
    | violated assertion =>
      simp only [finish, hx, hy]
      exact ⟨trivial, trivial, h'⟩
    | refused e =>
      obtain ⟨_, _, a'', b'', hx', hy', -, h''⟩ | ⟨halt, a'', b'', hx', hy', h''⟩ :=
        (Action.blind_abort a' b' h').run_cases
      · simp only [finish, hx, hy, hx', hy']
        exact ⟨trivial, trivial, h''⟩
      · simp only [finish, hx, hy, hx', hy']
        exact ⟨trivial, trivial, h''⟩

theorem run_alike (h : a.Alike stores b) {input : List UInt8}
    (huse : ∀ fed ∈ fedLines false (Text.lines input) a, fed.1.UsesStorage fed.2 → stores) :
    (run a input).1 = (run b input).1 ∧ (run a input).2.Alike stores (run b input).2 := by
  have hlines := readLines_alike h huse
  have hgreeting : greeting a = greeting b := by
    rw [greeting, h.dictionary.memory.size, h.dictionary.memory.unused, ← greeting]
  unfold run
  dsimp only
  rw [← hlines.halt]
  split
  · exact ⟨by rw [hgreeting, hlines.exchanges], hlines.assembler⟩
  · obtain ⟨hfarewell, hhalt, hlast⟩ := finish_alike hlines.assembler
    exact ⟨by rw [hgreeting, hlines.exchanges, hfarewell, hhalt], hlast⟩

theorem couples_session (h : a.Alike stores b) {input : List UInt8}
    (huse : ∀ fed ∈ fedLines false (Text.lines input) a, fed.1.UsesStorage fed.2 → stores) :
    Action.Couples { storage := stores } Eq (Action.session input) (Action.session input) a b := by
  obtain ⟨htranscript, hlast⟩ := run_alike h huse
  unfold Action.Couples Action.session
  simp only [EStateM.run, ← htranscript]
  cases (run a input).1.halt with
  | none => exact ⟨rfl, hlast⟩
  | some halt => cases halt <;> exact ⟨rfl, hlast⟩

end Session

namespace Operation

/-- The operation reads or writes the store. -/
def UsesStorage (a : Assembler) : Operation → Prop
  | feed text => a.UsesStorage text
  | run input => ∃ fed ∈ Session.fedLines false (Text.lines input) a, fed.1.UsesStorage fed.2
  | saveToStorage _ | loadFromStorage => True
  | _ => False

/-- What comes of an operation. -/
def reply (a : Assembler) (operation : Operation) : Except Halt Reply :=
  match operation.perform.run a with
  | .ok reply _ => .ok reply
  | .error halt _ => .error halt

/-- What comes of a word, from its reply. -/
theorem run_feed_of_reply {a : Assembler} {text : String} {outcome : Outcome}
    (h : (feed text).reply a = .ok (.outcome outcome)) :
    (Action.feed text).run a = .ok outcome ((feed text).settle a) := by
  cases hrun : (Action.feed text).run a with
  | ok v b =>
    have hperform : (feed text).perform.run a = .ok (.outcome v) b := run_map_ok hrun
    simp only [reply, hperform] at h
    cases h
    rw [settle, hperform]
  | error halt b =>
    have hperform : (feed text).perform.run a = .error halt b := run_map_error hrun
    simp [reply, hperform] at h

/-- What comes of operations that are performed one after another, whatever comes of each. -/
def replies : List Operation → Assembler → List (Except Halt Reply)
  | [], _ => []
  | operation :: rest, a => operation.reply a :: replies rest (operation.settle a)

/-- None of the operations reads or writes the store. -/
def StorageFree : List Operation → Assembler → Prop
  | [], _ => True
  | operation :: rest, a => ¬ operation.UsesStorage a ∧ StorageFree rest (operation.settle a)

variable {stores : Prop} {a b : Assembler}

/-- By cases on the operation. -/
theorem couples_perform (h : a.Alike stores b) {operation : Operation}
    (huse : operation.UsesStorage a → stores) :
    Action.Couples { storage := stores } Eq operation.perform operation.perform a b := by
  have hmap {α : Type} {x : Action α} (f : α → Reply)
      (hx : Action.Couples { storage := stores } Eq x x a b) :
      Action.Couples { storage := stores } Eq (f <$> x) (f <$> x) a b := by
    rw [← bind_pure_comp]
    refine hx.bind ?_
    rintro v _ a' b' rfl h'
    exact Action.couples_pure rfl h'
  have hblind {α : Type} {x : Action α} (f : α → Reply) (hx : Action.Blind { storage := stores } x) :
      Action.Couples { storage := stores } Eq (f <$> x) (f <$> x) a b := hmap f (hx a b h)
  cases operation with
  | feed text => exact hmap _ (Action.couples_feed h huse fun _ => ⟨trivial, trivial⟩)
  | run input =>
    exact hmap _ (Session.couples_session h fun fed hfed huses => huse ⟨fed, hfed, huses⟩)
  | classify text => exact Action.couples_pure (by rw [h.classify]) h
  | compile token => exact hblind _ (Action.blind_compile token)
  | define name => exact hblind _ (Action.blind_define name)
  | defineVariable name => exact hblind _ (Action.blind_defineVariable name)
  | defineConstant name value => exact hblind _ (Action.blind_defineConstant name value)
  | forget name => exact hblind _ (Action.blind_forget name)
  | close => exact hblind _ Action.blind_close
  | finish => exact hblind _ Action.blind_finish
  | abort => exact hblind _ Action.blind_abort
  | reset => exact hblind _ Action.blind_reset
  | pushLiteral value => exact hblind _ (Action.blind_pushLiteral value)
  | popLiteral => exact hblind _ (Action.blind_popLiteral trivial)
  | lookup name => exact Action.couples_pure (by rw [h.lookup?]) h
  | require name => exact hblind _ (Action.blind_require name)
  | save autorun => exact hblind _ (Action.blind_save autorun)
  | load blob => exact hblind _ (Action.blind_load blob)
  | saveToStorage autorun => exact hblind _ (Action.blind_saveToStorage (huse trivial) autorun)
  | loadFromStorage => exact hblind _ (Action.blind_loadFromStorage (huse trivial))
  | status => exact Action.couples_pure (by rw [h.dictionary.status]) h
  | words => exact Action.couples_pure (by rw [h.dictionary.words]) h
  | vocabulary => exact Action.couples_pure (by rw [h.dictionary.vocabulary, h.options trivial]) h
  | trace start stop => exact Action.couples_pure (by rw [h.dictionary.traceText]) h
  | dump start length =>
    exact Action.couples_pure (by rw [Memory.dump_congr h.dictionary.memory.allocated]) h
  | see name =>
    simp only [perform]
    rw [Action.couples_get, h.dictionary.see, h.foldCase]
    exact hblind _ (.ofExcept _)
  | entries => exact Action.couples_pure (by rw [h.dictionary.entries]) h

theorem reply_alike (h : a.Alike stores b) {operation : Operation}
    (huse : operation.UsesStorage a → stores) :
    operation.reply a = operation.reply b ∧
      (operation.settle a).Alike stores (operation.settle b) := by
  unfold reply settle
  obtain ⟨v, _, a', b', hx, hy, rfl, h'⟩ | ⟨halt, a', b', hx, hy, h'⟩ :=
    (couples_perform h huse).run_cases
  · rw [hx, hy]
    exact ⟨rfl, h'⟩
  · rw [hx, hy]
    exact ⟨rfl, h'⟩

/-- Operations do not tell apart assemblers that differ only behind the cursor, and leave them so;
nor those that also store different bytes, if none of the operations uses the store. By induction on
the operations. -/
theorem settleAll_alike (h : a.Alike stores b) {operations : List Operation}
    (hstores : stores ∨ StorageFree operations a) :
    replies operations a = replies operations b ∧
      (settleAll operations a).Alike stores (settleAll operations b) := by
  induction operations generalizing a b with
  | nil => exact ⟨rfl, h⟩
  | cons operation rest ih =>
    have huse : operation.UsesStorage a → stores := fun huses =>
      hstores.elim id fun hfree => absurd huses hfree.1
    obtain ⟨hreply, h'⟩ := reply_alike h huse
    obtain ⟨hreplies, hlast⟩ := ih h' (hstores.imp_right And.right)
    exact ⟨by rw [replies, replies, hreply, hreplies], hlast⟩

theorem replies_alike (h : a.Alike False b) {operations : List Operation}
    (hfree : StorageFree operations a) : replies operations a = replies operations b :=
  (settleAll_alike h (.inr hfree)).1

/-- Whatever is done to two assemblers that differ only in the bytes behind the cursor, each
operation has the same result on both, and they then differ in nothing else. -/
theorem stale_unobservable (h : a.Alike True b) (operations : List Operation) :
    replies operations a = replies operations b ∧
      (settleAll operations a).Alike True (settleAll operations b) :=
  settleAll_alike h (.inl trivial)

/-- A forgotten variable leaves its bytes behind the cursor. -/
theorem stale_unobservable_forgotten :
    let a : Assembler := .new ⟨32, by decide, by decide⟩ {} .empty
    let b := settleAll [.defineVariable "X", .forget "X"] a
    let operations : List Operation :=
      [.lookup "X", .words, .dump 0 32, .save false, .feed ":", .feed "Y", .close, .see "Y"]
    a.dictionary.memory.buffer ≠ b.dictionary.memory.buffer ∧
      replies operations a = replies operations b := by
  intro a b operations
  have hmemory : a.dictionary.memory.Alike b.dictionary.memory :=
    ⟨by decide +kernel, by decide +kernel⟩
  have hrest : a.dictionary.head = b.dictionary.head ∧ a.options = b.options ∧ a.mode = b.mode ∧
      a.frames = b.frames ∧ a.awaiting = b.awaiting ∧ a.definition = b.definition ∧
      a.literals = b.literals ∧ a.storage = b.storage := by
    decide +kernel
  obtain ⟨hhead, hoptions, hmode, hframes, hawaiting, hdefinition, hliterals, hstorage⟩ := hrest
  have halike : a.Alike True b :=
    ⟨⟨hmemory, hhead⟩, congrArg _ hoptions, congrArg _ hoptions, congrArg _ hoptions,
      fun _ => congrArg _ hoptions, hmode, hframes, hawaiting, hdefinition, fun _ => hliterals,
      fun _ => hstorage⟩
  exact ⟨by decide +kernel, (stale_unobservable halike operations).1⟩

end Operation
end ForthAssembler
