import ForthAssembler.Proofs.Session.Interpreting
import ForthAssembler.Proofs.Session.Saves

/-! The course of a definition, from the closed state in which it is opened to the end of it. -/
namespace ForthAssembler
open Text Assembler

/-- The states in the course of a definition that is opened in `s`: what operations lead to, one
after the other, as long as none of them closes or drops it. -/
inductive Course (s : Assembler) (name : String) : Assembler → Prop
  | define {a : Assembler} {address : Nat} (hrun : (Action.define name).run s = .ok address a) :
      Course s name a
  | colon {a : Assembler} {outcome : Outcome} (hawaiting : s.awaiting = .name .colon)
      (hrun : (Action.feed name).run s = .ok outcome a) : Course s name a
  | perform {a b : Assembler} (h : Course s name a) {operation : Operation} {reply : Reply}
      (hsingle : operation.Single) (hok : operation.perform.run a = .ok reply b)
      (hopen : b.definition ≠ none) : Course s name b
  | refuse {a b : Assembler} (h : Course s name a) {operation : Operation} {e : Error}
      (hsingle : operation.Single) (hrefused : operation.perform.run a = .error (.refused e) b) :
      Course s name b

/-- The open definition is closed, so that its word is there. -/
inductive Closes (a b : Assembler) : Prop
  | feed {text : String} {outcome : Outcome} (hrun : (Action.feed text).run a = .ok outcome b)
      (hclosed : b.definition = none)
  | finish {outcome : Option Outcome} (hrun : Action.finish.run a = .ok outcome b)
  | close {outcome : Outcome} (hrun : Action.close.run a = .ok outcome b)

namespace Assembler

/-- The definition that was opened in `s` is under way. -/
structure Underway (s : Assembler) (name : String) (a : Assembler) : Prop where
  options : a.options = s.options
  defines : ∃ draft, Defines id s.dictionary.memory.allocated s.dictionary.head name draft a

/-- The definition that was opened in `s` has been closed. -/
structure Finished (s : Assembler) (name : String) (a : Assembler) : Prop where
  options : a.options = s.options
  mode : a.mode = .interpret
  added : ∃ body, Added s.dictionary.memory.allocated s.dictionary.head name body a

namespace Underway
variable {s a : Assembler} {name : String}

theorem isOpen (h : Underway s name a) : a.definition ≠ none := by
  obtain ⟨draft, hdefines⟩ := h.defines
  simp [hdefines.definition]

theorem congr (h : Underway s name a) {a' : Assembler} (hdictionary : a'.dictionary = a.dictionary)
    (hoptions : a'.options = a.options) (hframes : a'.frames = a.frames)
    (hdefinition : a'.definition = a.definition) (hmode : a'.mode = a.mode) :
    Underway s name a' := by
  obtain ⟨draft, hdefines⟩ := h.defines
  exact ⟨hoptions.trans h.options, draft, hdefines.congr hdictionary hframes hdefinition hmode⟩

theorem of_continues (h : Underway s name a) {a' : Assembler}
    (h' : Continues s.dictionary.memory.allocated s.dictionary.head name a a') :
    Finished s name a' ∨ Underway s name a' := by
  obtain hdefines | ⟨-, -, hmode, hadded⟩ := h'.outcome
  · exact .inr ⟨h'.options.trans h.options, hdefines⟩
  · exact .inl ⟨h'.options.trans h.options, hmode, hadded⟩

theorem ensures_close (h : Underway s name a) :
    Action.close.Ensures (fun _ a' => Finished s name a') (fun _ a' => a' = a) a := by
  obtain ⟨draft, hdefines⟩ := h.defines
  refine (Action.ensures_close hdefines).mono ?_ fun _ _ hrefused => hrefused.1
  rintro _ a' ⟨b, -, hkeeps, -, hmode, hadded⟩
  exact ⟨hkeeps.options.trans h.options, hmode, _, hadded⟩

theorem meets_compile (h : Underway s name a) (token : Token) :
    (Action.compile token).Meets (fun _ a' => Finished s name a' ∨ Underway s name a')
      (fun _ _ => True) True a := by
  obtain ⟨draft, hdefines⟩ := h.defines
  obtain rfl | ⟨word, -, hrun⟩ | ⟨-, -, ⟨-, awaiting, -, -, hcompile⟩ | ⟨e, -, hcompile⟩⟩ :=
    Action.compile_cases token a
  · exact h.ensures_close.meets_ok fun _ _ => .inl
  · refine .of_run_eq hrun ((Action.ensures_action_opened hdefines word).meets_ok ?_)
    exact fun _ _ => h.of_continues
  · rw [hcompile]
    exact .inr (h.congr rfl rfl rfl rfl rfl)
  · rw [hcompile]
    trivial

theorem ensures_finish (h : Underway s name a) :
    Action.finish.Ensures (fun _ a' => Finished s name a') (fun _ _ => True) a := by
  have hb : Underway s name { a with awaiting := .nothing } := h.congr rfl rfl rfl rfl rfl
  rw [Action.finish, Action.ensures_bind, Action.ensures_takeAwaiting]
  split
  · trivial
  · trivial
  · trivial
  · simp only [Action.ensures_bind, Action.ensures_get, Action.ensures_ite, Action.ensures_map,
      Action.ensures_pure]
    refine ⟨fun _ => hb.ensures_close.mono (fun _ _ h' => h') fun _ _ _ => trivial,
      fun hclosed => ?_⟩
    have hopen := h.isOpen
    simp [isCompiling, hopen] at hclosed

/-- A definition that is not compiled is dropped, or left under way. By cases on the change. -/
theorem change {demand : Demand} (h : Underway s name a) {a' : Assembler}
    (hchange : Change demand a a') (hcompiles : ¬ demand.compiles)
    (hconfigures : ¬ demand.configures) : a'.definition = none ∨ Underway s name a' := by
  have hopen := h.isOpen
  cases hchange with
  | beside => exact .inr (h.congr rfl rfl rfl rfl rfl)
  | configured configures => exact absurd configures hconfigures
  | stored => exact .inr (h.congr rfl rfl rfl rfl rfl)
  | compiled compiles => exact absurd compiles hcompiles
  | opened _ isClosed => exact absurd isClosed hopen
  | closed => exact .inl rfl
  | dropped => exact .inl rfl
  | cleared => exact .inl rfl
  | added acquires => exact absurd acquires.closed hopen
  | forgotten _ isClosed => exact .inl isClosed
  | loaded isClosed => exact .inl isClosed

/-- A single operation closes the definition, or drops it, or leaves it under way. -/
theorem meets_perform (h : Underway s name a) {operation : Operation} (hsingle : operation.Single) :
    operation.perform.Meets (fun _ a' => a'.definition = none ∨ Underway s name a')
      (fun _ _ => True) True a := by
  have hfinished {a' : Assembler} (h' : Finished s name a' ∨ Underway s name a') :
      a'.definition = none ∨ Underway s name a' := by
    obtain ⟨-, -, body, hadded⟩ | hunderway := h'
    · exact .inl hadded.definition
    · exact .inr hunderway
  cases operation with
  | run input => exact hsingle.elim
  | feed text =>
    obtain ⟨draft, hdefines⟩ := h.defines
    rw [Operation.perform, Action.meets_map]
    exact (Action.ensures_feed_opened hdefines text).meets_ok fun _ _ h' =>
      hfinished (h.of_continues h')
  | compile token =>
    rw [Operation.perform, Action.meets_map]
    exact (h.meets_compile token).imp fun _ _ h' => hfinished h'
  | close =>
    rw [Operation.perform, Action.meets_map]
    exact h.ensures_close.meets_ok fun _ _ h' => hfinished (.inl h')
  | finish =>
    rw [Operation.perform, Action.meets_map]
    exact h.ensures_finish.meets_ok fun _ _ h' => hfinished (.inl h')
  | _ =>
    exact (Operation.does_perform (by rintro _ ⟨⟩)).accepts.imp fun _ _ heffect =>
      h.change heffect.change id id

end Underway
end Assembler

theorem Action.ensures_feed_colon {s : Assembler} (hcolon : s.awaiting = .name .colon)
    (name : String) :
    (feed name).Ensures (fun _ a => Underway s name a) (fun _ _ => True) s := by
  rw [feed, ensures_bind, ensures_takeAwaiting, hcolon]
  simp only [named, ensures_bind]
  refine (ensures_define id name).mono ?_ fun _ _ _ => trivial
  rintro address a ⟨-, -, hkeeps, hdefines⟩
  exact ⟨hkeeps.options, _, hdefines⟩

namespace Course
variable {s a b : Assembler} {name : String}

/-- By induction on the course of the definition. -/
theorem underway (h : Course s name a) : Underway s name a := by
  induction h with
  | define hrun =>
    obtain ⟨-, -, hkeeps, hdefines⟩ := (Action.ensures_define id name).of_ok hrun
    exact ⟨hkeeps.options, _, hdefines⟩
  | colon hawaiting hrun => exact (Action.ensures_feed_colon hawaiting name).of_ok hrun
  | perform _ hsingle hok hopen ih =>
    obtain hclosed | hunderway := (ih.meets_perform hsingle).of_ok hok
    · exact absurd hclosed hopen
    · exact hunderway
  | @refuse _ _ _ operation _ _ hrefused ih =>
    obtain rfl := operation.meets_perform.of_refused hrefused
    exact Operation.of_dropAwaiting ih (ih.congr rfl rfl rfl rfl rfl) operation

end Course

theorem Closes.finished {s a b : Assembler} {name : String} (h : Closes a b)
    (ha : Underway s name a) : Finished s name b := by
  cases h with
  | feed hrun hclosed =>
    obtain ⟨draft, hdefines⟩ := ha.defines
    obtain hfinished | hunderway :=
      ha.of_continues ((Action.ensures_feed_opened hdefines _).of_ok hrun)
    · exact hfinished
    · exact absurd hclosed hunderway.isOpen
  | finish hrun => exact ha.ensures_finish.of_ok hrun
  | close hrun => exact ha.ensures_close.of_ok hrun

theorem Action.closed_of_load {blob : List UInt8} {a b : Assembler} {reply : Reply}
    (h : (Operation.load blob).perform.run a = .ok reply b) : b.definition = none := by
  have hload : (Operation.load blob).perform.Meets (fun _ b => b.definition = none)
      (fun _ _ => True) True a := by
    simp +contextual [Operation.perform, load]
  exact hload.of_ok h

namespace Operation
variable {a b : Assembler} {operation : Operation}

theorem exists_of_opens (h : (operation.demand a).opens) :
    ∃ name, operation = define name ∨ a.awaiting = .name .colon ∧ operation = feed name := by
  cases operation with
  | define name => exact ⟨name, .inl rfl⟩
  | feed word =>
    refine ⟨word, .inr ⟨?_, rfl⟩⟩
    change (a.demand word).opens at h
    unfold Assembler.demand at h
    split at h
    · rename_i use hawaiting
      rw [hawaiting]
      exact congrArg Awaiting.name h
    all_goals exact h.elim
  | _ => exact h.elim

/-- Where no definition is open, only the operation for it and a word after a colon open one. -/
theorem meets_perform_closed (hclosed : a.definition = none) (hsingle : operation.Single) :
    operation.perform.Meets (fun _ b => b.definition ≠ none →
        ∃ name, operation = define name ∨ a.awaiting = .name .colon ∧ operation = feed name)
      (fun _ _ => True) True a := by
  have hrun (input : List UInt8) : operation ≠ run input := by
    rintro rfl
    exact hsingle
  have hdrop : (operation.dropAwaiting a).definition = none :=
    of_dropAwaiting (P := fun b => b.definition = none) hclosed hclosed operation
  apply (does_perform hrun).accepts.imp
  intro _ b heffect hopen
  apply exists_of_opens
  by_contra hopens
  exact hopen (heffect.change.isClosed hdrop hopens)

end Operation

/-- A definition that is open was opened in a closed state, and that is its course. -/
structure Begun (a : Assembler) : Prop where
  reachable : Reachable a
  course : ∀ definition, a.definition = some definition →
    ∃ s, Reachable s ∧ s.definition = none ∧ Course s definition.name a

namespace Begun
variable {a b : Assembler} {operation : Operation}

theorem of_closed (h : Reachable a) (hclosed : a.definition = none) : Begun a :=
  ⟨h, by simp [hclosed]⟩

/-- The course goes on in the same definition. -/
theorem of_course {s : Assembler} {name : String} (hb : Reachable b) (hs : Reachable s)
    (hclosed : s.definition = none) (hcourse : Course s name b) : Begun b := by
  refine ⟨hb, fun definition hdefinition => ⟨s, hs, hclosed, ?_⟩⟩
  obtain ⟨draft, hdefines⟩ := hcourse.underway.defines
  rw [hdefines.definition] at hdefinition
  cases hdefinition
  exact hcourse

theorem of_refused (h : Begun a) (hb : Reachable b) (hsingle : operation.Single) {e : Error}
    (hrefused : operation.perform.run a = .error (.refused e) b) : Begun b := by
  cases hdefinition : a.definition with
  | none =>
    obtain rfl := operation.meets_perform.of_refused hrefused
    apply Begun.of_closed hb
    exact Operation.of_dropAwaiting (P := fun b => b.definition = none) hdefinition hdefinition
      operation
  | some definition =>
    obtain ⟨s, hs, hclosed, hcourse⟩ := h.course definition hdefinition
    exact .of_course hb hs hclosed (hcourse.refuse hsingle hrefused)

theorem of_ok (h : Begun a) (hb : Reachable b) (hop : operation.Ordinary)
    (hsingle : operation.Single) {reply : Reply} (hok : operation.perform.run a = .ok reply b) :
    Begun b := by
  by_cases hopen : b.definition = none
  · exact .of_closed hb hopen
  cases hdefinition : a.definition with
  | none =>
    obtain ⟨name, rfl | ⟨hcolon, rfl⟩⟩ :=
      (Operation.meets_perform_closed hdefinition hsingle).of_ok hok hopen
    · obtain ⟨address, hrun⟩ := Action.exists_of_run_map hok
      exact .of_course hb h.reachable hdefinition (.define hrun)
    · obtain ⟨outcome, hrun⟩ := Action.exists_of_run_map hok
      exact .of_course hb h.reachable hdefinition (.colon hcolon hrun)
  | some definition =>
    obtain ⟨s, hs, hclosed, hcourse⟩ := h.course definition hdefinition
    exact .of_course hb hs hclosed (hcourse.perform hsingle hok hopen)

theorem ensures_perform (h : Begun a) (hop : operation.Ordinary) (hsingle : operation.Single) :
    operation.perform.Ensures (fun _ => Begun) (fun _ => Begun) a := by
  unfold Action.Ensures
  obtain ⟨reply, b, hrun, hb⟩ | ⟨e, b, hrun, hb⟩ := (h.reachable.ensures_perform hop).run_cases
  · rw [hrun]
    exact h.of_ok hb hop hsingle hrun
  · rw [hrun]
    exact h.of_refused hb hsingle hrun

theorem session : Session.Invariant False Begun :=
  .of_perform fun _ _ h => h.ensures_perform

end Begun

/-- Every definition that is open in a session is in its course from a closed state of the session,
also in the middle of a run. -/
theorem Reachable.begun {a : Assembler} (h : Reachable a) : Begun a := by
  induction h with
  | start capacity options hempty => exact .of_closed (.start capacity options hempty) rfl
  | restart capacity options h => exact .of_closed (.restart capacity options h) rfl
  | @perform a h operation hop ih =>
    refine Operation.of_ensures_settle ?_
    cases operation with
    | run input =>
      rw [Operation.perform, Action.ensures_map]
      exact Begun.session.meets_session ih input
    | _ => exact ih.ensures_perform hop trivial
  | @load a c c' h h' autorun blob hsave ih =>
    obtain ⟨l, hl⟩ := h.exists_history
    obtain ⟨m, hm⟩ := h'.exists_history
    have hb : Reachable ((Operation.load blob).settle a) := .load h h' hsave
    obtain ⟨reply, b, hrun, -⟩ | ⟨e, b, hrun, -⟩ := (hl.ensures_load hm hsave).run_cases
    · rw [Operation.settle, hrun] at hb ⊢
      exact .of_closed hb (Action.closed_of_load hrun)
    · rw [Operation.settle, hrun] at hb ⊢
      exact ih.of_refused hb (show (Operation.load blob).Single from trivial) hrun

end ForthAssembler
