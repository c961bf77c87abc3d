import ForthAssembler.Proofs.Assembler.Atomic
import ForthAssembler.Session.Operation

/-! What every word keeps, a whole session keeps. -/
namespace ForthAssembler.Session
open ForthAssembler.Action

/-- The words of a line that are fed, each with the state before. -/
def fedWords (inComment : Bool) : List String → Assembler → List (Assembler × String)
  | [], _ => []
  | word :: rest, a =>
    if inComment then fedWords (word.toList.getLast? != some ')') rest a
    else if !a.isCollecting && word == "(" then fedWords true rest a
    else if !a.isCollecting && word == "\\" then []
    else
      (a, word) :: match feed a word with
        | (_, a', .word) => fedWords false rest a'
        | _ => []

/-- The words of all lines that are fed, each with the state before. -/
def fedLines (inComment : Bool) : List (List UInt8) → Assembler → List (Assembler × String)
  | [], _ => []
  | line :: rest, a =>
    match Text.ofUtf8? line with
    | none => []
    | some text =>
      let progress := readWords inComment (Text.words text) a
      fedWords inComment (Text.words text) a ++
        if progress.halt.isSome then []
        else fedLines progress.inComment rest progress.assembler

/-- Reading has halted only at an assertion that may fail, or else in a state like all others. -/
def Stops (violated : Assertion → Prop) (P : Assembler → Prop) : Option Halt → Assembler → Prop
  | some (.violated assertion), _ => violated assertion
  | _, a => P a

/-- After an abort, or at the end of the input, the state is like all others, or an assertion has
failed that may fail. -/
structure Settles (violated : Assertion → Prop) (P : Assembler → Prop) : Prop where
  abort : ∀ a, P a → Action.abort.Yields (fun _ => P) (fun halt => Stops violated P halt) a
  finish : ∀ a, P a → Action.finish.Yields (fun _ => P) (fun halt => Stops violated P halt) a

/-- What a word keeps that is fed. -/
abbrev Carries (violated : Assertion → Prop) (P : Assembler → Prop) (fed : Assembler × String) :
    Prop :=
  P fed.1 → (Action.feed fed.2).Yields (fun _ => P) (fun halt => Stops violated P halt) fed.1

namespace Settles
variable {violated : Assertion → Prop} {P : Assembler → Prop} {a : Assembler}

/-- After a refusal the open definition is dropped. -/
theorem stops_feed (hP : Settles violated P) {word : String} (hword : Carries violated P (a, word))
    (h : P a) :
    match Session.feed a word with
    | (_, a', .stop halt) => Stops violated P (some halt) a'
    | (_, a', _) => P a' := by
  obtain ⟨outcome, b, hrun, hb⟩ | ⟨halt, b, hrun, hb⟩ := (hword h).run_cases
  · simpa only [Session.feed, hrun] using hb
  · cases halt with
    | violated assertion => simpa only [Session.feed, hrun] using hb
    | refused e =>
      obtain ⟨_, c, hrun', hc⟩ | ⟨halt, c, hrun', hc⟩ := (hP.abort b hb).run_cases <;>
        simpa only [Session.feed, hrun, hrun'] using hc

theorem stops_readWords (hP : Settles violated P) {inComment : Bool} {words : List String}
    (hwords : ∀ fed ∈ fedWords inComment words a, Carries violated P fed) (h : P a) :
    Stops violated P (readWords inComment words a).halt (readWords inComment words a).assembler := by
  induction words generalizing inComment a with
  | nil => exact h
  | cons word rest ih =>
    rw [fedWords] at hwords
    rw [readWords]
    split
    · rename_i hcomment
      exact ih (by rwa [if_pos hcomment] at hwords) h
    rename_i hcomment
    rw [if_neg hcomment] at hwords
    split
    · rename_i hopen
      exact ih (by rwa [if_pos hopen] at hwords) h
    rename_i hopen
    rw [if_neg hopen] at hwords
    split
    · exact h
    rename_i hline
    rw [if_neg hline] at hwords
    obtain ⟨hword, hrest⟩ := List.forall_mem_cons.mp hwords
    have hnext := hP.stops_feed hword h
    rcases hfeed : Session.feed a word with ⟨exchange, b, next⟩
    rw [hfeed] at hnext hrest
    cases next with
    | word => exact ih hrest hnext
    | line => exact hnext
    | stop halt => exact hnext

theorem stops_readLines (hP : Settles violated P) {inComment : Bool} {lines : List (List UInt8)}
    (hlines : ∀ fed ∈ fedLines inComment lines a, Carries violated P fed) (h : P a) :
    Stops violated P (readLines inComment lines a).halt (readLines inComment lines a).assembler := by
  induction lines generalizing inComment a with
  | nil => exact h
  | cons line rest ih =>
    rw [fedLines] at hlines
    rw [readLines]
    split
    · exact h
    · rename_i text htext
      simp only [htext, List.forall_mem_append] at hlines
      have hwords := hP.stops_readWords hlines.1 h
      dsimp only
      split
      · exact hwords
      · rename_i hhalt
        have hrest := hlines.2
        rw [if_neg hhalt] at hrest
        rw [Option.not_isSome_iff_eq_none.mp hhalt] at hwords
        exact ih hrest hwords

theorem stops_finish (hP : Settles violated P) (h : P a) :
    Stops violated P (Session.finish a).2.1 (Session.finish a).2.2 := by
  obtain ⟨outcome, b, hrun, hb⟩ | ⟨halt, b, hrun, hb⟩ := (hP.finish a h).run_cases
  · simpa only [Session.finish, hrun, Stops] using hb
  · cases halt with
    | violated assertion => simpa only [Session.finish, hrun] using hb
    | refused e =>
      obtain ⟨_, c, hrun', hc⟩ | ⟨halt, c, hrun', hc⟩ := (hP.abort b hb).run_cases <;>
        simpa only [Session.finish, hrun, hrun', Stops] using hc

/-- A run is made of words, aborts and the end of the input. -/
theorem stops_run (hP : Settles violated P) {input : List UInt8}
    (hlines : ∀ fed ∈ fedLines false (Text.lines input) a, Carries violated P fed) (h : P a) :
    Stops violated P (run a input).1.halt (run a input).2 := by
  have hread := hP.stops_readLines hlines h
  unfold run
  dsimp only
  split
  · rename_i halt heq
    rwa [heq] at hread
  · rename_i heq
    rw [heq] at hread
    exact hP.stops_finish hread

theorem yields_session (hP : Settles violated P) {input : List UInt8}
    (hlines : ∀ fed ∈ fedLines false (Text.lines input) a, Carries violated P fed) (h : P a) :
    (Action.session input).Yields (fun _ => P) (fun halt => Stops violated P halt) a := by
  have hrun := hP.stops_run hlines h
  unfold Yields Action.session
  simp only [EStateM.run]
  rcases hhalt : (run a input).1.halt with _ | ⟨e | assertion⟩ <;>
    simpa only [hhalt, Stops] using hrun

end Settles

/-- What words, aborts and the end of the input keep, in the states where they do not fail an
assertion. Assertions may fail only if `violated`. -/
structure Invariant (violated : Prop) (P : Assembler → Prop) : Prop where
  feed : ∀ a word, P a → (Action.feed word).Meets (fun _ => P) (fun _ => P) violated a
  abort : ∀ a, P a → Action.abort.Meets (fun _ => P) (fun _ => P) violated a
  finish : ∀ a, P a → Action.finish.Meets (fun _ => P) (fun _ => P) violated a

namespace Invariant
variable {violated : Prop} {P : Assembler → Prop} {a : Assembler}

/-- What no change takes away stays, whatever is fed. -/
theorem of_change (hP : ∀ demand a a', P a → Assembler.Change demand a a' → P a') :
    Invariant True P := by
  have hawaiting {a : Assembler} (h : P a) : P { a with awaiting := .nothing } :=
    hP {} a _ h .beside
  constructor
  · exact fun a word h =>
      (Action.does_feed word).keeps (hawaiting h) fun a' => hP _ _ a' (hawaiting h)
  · exact fun a h => Action.does_abort.keeps h fun a' => hP _ _ a' h
  · exact fun a h => Action.does_finish.keeps (hawaiting h) fun a' => hP _ _ a' (hawaiting h)

/-- The contract of what a word, an abort or the end of the input keeps. -/
theorem yields_stops {α : Type} {x : Action α}
    (h : x.Meets (fun _ => P) (fun _ => P) violated a) :
    x.Yields (fun _ => P) (fun halt => Stops (fun _ => violated) P halt) a := by
  rw [meets_eq_yields] at h
  apply h.imp_failed
  rintro (e | assertion) a' hfailed <;> exact hfailed

theorem settles (hP : Invariant violated P) : Settles (fun _ => violated) P where
  abort := fun a h => yields_stops (hP.abort a h)
  finish := fun a h => yields_stops (hP.finish a h)

theorem carries (hP : Invariant violated P) (fed : Assembler × String) :
    Carries (fun _ => violated) P fed :=
  fun h => yields_stops (hP.feed fed.1 fed.2 h)

theorem stops_feed (hP : Invariant violated P) (h : P a) (word : String) :
    match Session.feed a word with
    | (_, a', .stop halt) => Stops (fun _ => violated) P (some halt) a'
    | (_, a', _) => P a' :=
  hP.settles.stops_feed (hP.carries (a, word)) h

theorem stops_readWords (hP : Invariant violated P) (h : P a) (inComment : Bool)
    (words : List String) :
    Stops (fun _ => violated) P (readWords inComment words a).halt
      (readWords inComment words a).assembler :=
  hP.settles.stops_readWords (fun fed _ => hP.carries fed) h

theorem stops_readLines (hP : Invariant violated P) (h : P a) (inComment : Bool)
    (lines : List (List UInt8)) :
    Stops (fun _ => violated) P (readLines inComment lines a).halt
      (readLines inComment lines a).assembler :=
  hP.settles.stops_readLines (fun fed _ => hP.carries fed) h

theorem meets_session (hP : Invariant violated P) (h : P a) (input : List UInt8) :
    (Action.session input).Meets (fun _ => P) (fun _ => P) violated a := by
  rw [meets_eq_yields]
  apply (hP.settles.yields_session (fun fed _ => hP.carries fed) h).imp_failed
  rintro (e | assertion) a' hstops <;> exact hstops

end Invariant
end ForthAssembler.Session
