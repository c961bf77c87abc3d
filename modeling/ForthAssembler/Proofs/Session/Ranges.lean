import ForthAssembler.Proofs.Assembler.Emission
import ForthAssembler.Proofs.Session.Lockstep
import ForthAssembler.Proofs.Session.Unfailing

/-! The ranges that are reported in a session: they hold what each word emits, and those of a colon
definition cover its code. -/
namespace ForthAssembler
open Instr Text Assembler

/-- Words are fed while a definition is open, and none is refused. -/
inductive Assembler.Feeds : Assembler → List Outcome → Assembler → Prop
  | nil (a : Assembler) : Feeds a [] a
  | cons {a b c : Assembler} {text : String} {outcome : Outcome} {outcomes : List Outcome}
      (hopen : a.definition ≠ none) (hrun : (Action.feed text).run a = .ok outcome b)
      (hrest : Feeds b outcomes c) : Feeds a (outcome :: outcomes) c

/-- The ranges follow each other without gap or overlap. -/
def Tiles (start : Nat) : List (Nat × Nat) → Nat → Prop
  | [], stop => start = stop
  | range :: ranges, stop => range.1 = start ∧ start ≤ range.2 ∧ Tiles range.2 ranges stop

variable {older : List UInt8} {link : Link} {name : String} {draft : Draft.Any Instr}
  {a b c : Assembler} {text : String} {outcome : Outcome} {outcomes : List Outcome}

/-- The first range starts at the cursor, and the next one where the cursor is then. -/
theorem Outcome.Emits.tiles {code : List Instr} {stop : Nat}
    (h : outcome.Emits a.here code b.dictionary)
    (hrest : Tiles b.here (outcomes.filterMap Outcome.range?) stop) :
    Tiles a.here ((outcome :: outcomes).filterMap Outcome.range?) stop := by
  have hhere : b.here = a.here + sizeAll code := h.here_eq
  unfold Outcome.Emits at h
  cases hrange : outcome.range? with
  | none =>
    rw [hrange] at h
    rwa [List.filterMap_cons_none hrange, ← h.2]
  | some range =>
    rw [hrange] at h
    rw [List.filterMap_cons_some hrange]
    refine ⟨h.1, ?_, ?_⟩
    · rw [h.2.1]
      exact Nat.le.intro hhere.symm
    · rw [h.2.1]
      exact hrest

/-- While its words are fed, the entry of the definition stays, and the ranges go from where its
code was to where it is. By induction on the words. -/
theorem Assembler.Feeds.tiles (h : a.Feeds outcomes c)
    (hdefines : a.Defines id older link name draft) :
    Tiles a.here (outcomes.filterMap Outcome.range?) c.here ∧
      ∃ hidden rest, c.dictionary.memory.allocated =
        older ++ Entry.header link hidden name ++ rest := by
  induction h generalizing draft with
  | nil a => exact ⟨rfl, true, _, hdefines.code.allocated⟩
  | cons hopen hrun hrest ih =>
    have hemits := (Action.emits_feed_opened hdefines _).of_ok hrun
    have hcontinues := (Action.ensures_feed_opened hdefines _).of_ok hrun
    obtain ⟨after, hafter⟩ | ⟨-, -, -, body, hadded⟩ := hcontinues.outcome
    · obtain ⟨htiles, hentry⟩ := ih hafter
      exact ⟨hemits.tiles htiles, hentry⟩
    · -- The definition has been closed, so that this was the last word.
      cases hrest with
      | nil => exact ⟨hemits.tiles rfl, false, body, hadded.allocated⟩
      | cons hopen' => exact absurd hadded.definition hopen'

/-- The word after a colon opens a definition. -/
theorem Action.defines_of_feed_colon (hcolon : a.awaiting = .name .colon)
    (hrun : (feed name).run a = .ok outcome b) :
    b.Defines id a.dictionary.memory.allocated a.dictionary.head name Draft.start := by
  have hfeed : (feed name).Ensures
      (fun _ b => b.Defines id a.dictionary.memory.allocated a.dictionary.head name Draft.start)
      (fun _ _ => True) a := by
    rw [feed, ensures_bind, ensures_takeAwaiting, hcolon]
    simp only [named, ensures_bind]
    apply (ensures_define id name).mono ?_ fun _ _ _ => trivial
    intro address b hpost
    exact hpost.2.2.2
  exact hfeed.of_ok hrun

/-- In every state that regular operations lead to, a word of input that is accepted appends the
instructions that it stands for, and its outcome gives the range of these: from the cursor before to
the end of the code. But the header of a variable or constant, which is added whole, is in the range
as well. The ranges of a colon definition follow each other from its code offset to the cursor. -/
theorem Attains.reported_ranges {capacity : Capacity} {options : Options} {storage : Storage}
    (h : Attains Operation.Regular (.new capacity options storage) a) :
    (∀ text outcome a', (Action.feed text).run a = .ok outcome a' →
      outcome.Accounts a.here (a.preface text) (a.emission text) a.appendix a'.dictionary) ∧
    ∀ name outcome b outcomes c, a.awaiting = .name .colon →
      (Action.feed name).run a = .ok outcome b → b.Feeds outcomes c →
        Tiles (Entry.read c.dictionary.memory a.here).code (outcomes.filterMap Outcome.range?)
          c.here := by
  have hsafe : Safe capacity a := h.safe (.new capacity options storage)
  constructor
  · intro text outcome a' hrun
    cases hdefinition : a.definition with
    | none =>
      obtain ⟨-, hoperand, hmode⟩ := hsafe.closed hdefinition
      exact (Action.accounts_feed_closed hdefinition hmode hoperand text).of_ok hrun
    | some definition =>
      obtain ⟨older, draft, hdefines, -⟩ := hsafe.opened definition hdefinition
      have hcompiling : a.isCompiling = true := by simp [Assembler.isCompiling, hdefinition]
      have hpreface : a.preface text = [] := by simp [Assembler.preface, hcompiling]
      have happendix : a.appendix = [] := by simp [Assembler.appendix, hcompiling]
      rw [hpreface, happendix]
      exact ((Action.emits_feed_opened hdefines text).of_ok hrun).accounts
  · intro name outcome b outcomes c hcolon hrun hfeeds
    have hdefines := Action.defines_of_feed_colon hcolon hrun
    have hlength : a.dictionary.memory.allocated.length = a.here := Memory.length_allocated _
    obtain ⟨htiles, hidden, rest, halloc⟩ := hfeeds.tiles hdefines
    have hcode := Entry.code_read_header halloc hdefines.legal
    have hhere : b.here = a.here + (Entry.nameOffset + (utf8 name).length) := by
      rw [Assembler.here, Dictionary.here, hdefines.code.here_eq, List.length_append,
        Entry.length_header, hlength]
      rfl
    rw [hlength] at hcode
    rwa [hcode, ← hhere]

/-- The words of a definition, of which `THEN` reports an empty range. -/
theorem Attains.reported_ranges_definition :
    let a := Operation.settleAll [.feed ":"] (.new ⟨32, by decide, by decide⟩ {} .empty)
    let c := Operation.settleAll
      [.feed "D", .feed "DUP", .feed "IF", .feed "1", .feed "THEN", .feed ";"] a
    Tiles 4 [(4, 5), (5, 7), (7, 10), (10, 10), (10, 11)] c.here := by
  intro a c
  have hcolon : Operation.violation? (.new ⟨32, by decide, by decide⟩ {} .empty) (.feed ":") =
      none := by decide +kernel
  have h : Attains Operation.Regular (.new ⟨32, by decide, by decide⟩ {} .empty) a :=
    .perform .refl trivial hcolon
  have hname : (Action.feed "D").run a = .ok .done ((Operation.feed "D").settle a) :=
    Operation.run_feed_of_reply (by decide +kernel)
  have hfeeds : ((Operation.feed "D").settle a).Feeds [.compiled 4 5, .compiled 5 7,
      .compiled 7 10, .compiled 10 10, .defined "D" 0 10 11] c :=
    .cons (by decide +kernel) (Operation.run_feed_of_reply (by decide +kernel)) <|
    .cons (by decide +kernel) (Operation.run_feed_of_reply (by decide +kernel)) <|
    .cons (by decide +kernel) (Operation.run_feed_of_reply (by decide +kernel)) <|
    .cons (by decide +kernel) (Operation.run_feed_of_reply (by decide +kernel)) <|
    .cons (by decide +kernel) (Operation.run_feed_of_reply (by decide +kernel)) (.nil _)
  have hcode : (Entry.read c.dictionary.memory a.here).code = 4 := by decide +kernel
  have htiles := h.reported_ranges.2 "D" .done _ _ c (by decide +kernel) hname hfeeds
  rwa [hcode] at htiles

/-- The header of a variable is listed before its code. -/
theorem Operation.reported_range_variable :
    let a := Operation.settleAll [.feed "VAR"] (.new ⟨32, by decide, by decide⟩ {} .empty)
    let a' := (Operation.feed "X").settle a
    (Operation.feed "X").reply a = .ok (.outcome (.defined "X" 0 0 8)) ∧
      a'.dictionary.trace 0 8 ≠ listing 0 (a.emission "X") ∧
      a'.dictionary.trace 4 8 = listing 4 (a.emission "X") := by
  decide +kernel

end ForthAssembler
