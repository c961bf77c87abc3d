import ForthAssembler.Proofs.Session.Lockstep
import ForthAssembler.Proofs.Session.Ranges
import ForthAssembler.Proofs.Session.Unfailing

/-! While no definition is open words of input are interpreted: none is compiled, and few change the
image at all. -/
namespace ForthAssembler
open Text Assembler

namespace Operation

/-- The operation does not compile a token behind the back of the input, or close a definition
between `LIT` and its number. -/
def Orderly (a : Assembler) : Operation → Prop
  | compile _ => False
  | close => a.awaiting ≠ .operand
  | _ => True

theorem Orderly.regular {a : Assembler} {operation : Operation} (h : operation.Orderly a)
    (hclose : operation ≠ close) : operation.Regular := by
  cases operation <;> first | exact h.elim | exact absurd rfl hclose | trivial

end Operation

/-- The states that orderly operations lead to from `a`, whatever comes of them. -/
inductive InOrder (a : Assembler) : Assembler → Prop
  | refl : InOrder a a
  | perform {b : Assembler} (h : InOrder a b) {operation : Operation}
      (hop : operation.Orderly b) : InOrder a (operation.settle b)

/-- Names are compared and literals compiled alike. -/
structure Options.SameRules (o o' : Options) : Prop where
  foldCase : o'.foldCase = o.foldCase
  shortLiterals : o'.shortLiterals = o.shortLiterals

namespace Options.SameRules
variable {o o' o'' : Options}

theorem of_eq (h : o' = o) : o.SameRules o' := h ▸ ⟨rfl, rfl⟩

theorem trans (h : o.SameRules o') (h' : o'.SameRules o'') : o.SameRules o'' :=
  ⟨h'.foldCase.trans h.foldCase, h'.shortLiterals.trans h.shortLiterals⟩

end Options.SameRules

namespace Assembler

/-- The image is the same, and no definition is open. -/
def Untouched (a a' : Assembler) : Prop :=
  a'.dictionary = a.dictionary ∧ a'.definition = none

/-- What a word of input that is accepted does to the image while no definition is open. There is
code only in a variable or a constant, whose entry is added whole; after a colon only a header is
written. -/
def Retouches (a : Assembler) (text : String) (a' : Assembler) : Prop :=
  match a.awaiting with
  | .name .colon =>
    a'.Defines id a.dictionary.memory.allocated a.dictionary.head text Draft.start
  | .name .variable | .name .constant =>
    ∃ body, a'.Added a.dictionary.memory.allocated a.dictionary.head text body
  | .name .forget =>
    a'.definition = none ∧ a'.dictionary.memory.allocated <+: a.dictionary.memory.allocated ∧
      ∃ address, a.dictionary.forget a.options.foldCase text = .ok (address, a'.dictionary)
  | .name .see | .operand | .text _ => a.Untouched a'
  | .nothing =>
    match a.classify text with
    | .command .load => a'.definition = none
    | .command .reset =>
      a'.definition = none ∧ a'.dictionary.memory.allocated = [] ∧ a'.dictionary.head = none
    | _ => a.Untouched a'

/-- The word was interpreted: no code was compiled at the cursor. -/
structure Interprets (a : Assembler) (text : String) (outcome : Outcome) (a' : Assembler) :
    Prop where
  outcome : ∀ start stop, outcome ≠ .compiled start stop
  rules : a.options.SameRules a'.options
  image : a.Retouches text a'

end Assembler

theorem Dictionary.prefix_of_forget_eq_ok {d d' : Dictionary} {foldCase : Bool} {name : String}
    {address : Nat} (h : d.forget foldCase name = .ok (address, d')) :
    d'.memory.allocated <+: d.memory.allocated := by
  unfold forget truncate at h
  split at h
  · cases h
  rename_i entry _
  split at h
  · cases h
  rename_i htruncate
  cases h
  split at htruncate
  · cases htruncate
  rename_i m hrewind
  have hallocated := Memory.rewind?_eq d.memory entry.address
  rw [hrewind, Option.map_some] at hallocated
  split at hallocated
  · split at htruncate
    · cases htruncate
      rw [Option.some.inj hallocated]
      exact List.take_prefix _ _
    · cases htruncate
  · cases hallocated

namespace Action
variable {a b : Assembler} {text : String}

/-- The action leaves the image and the rules alone. What comes of a refusal does not matter. -/
abbrev Shows (x : Action Outcome) (a : Assembler) : Prop :=
  x.Meets (fun outcome a' => (∀ start stop, outcome ≠ .compiled start stop) ∧
    a.options.SameRules a'.options ∧ a.Untouched a') (fun _ _ => True) True a

theorem shows_saveAndReport (hclosed : a.definition = none) (autorun : Bool) :
    (saveAndReport autorun).Shows a := by
  simp only [Shows, saveAndReport, saveToStorage, save, meets_bind, meets_requireClosed, meets_get,
    meets_pure, implies_true, true_and]
  intro _
  split <;> simp [Untouched, hclosed, Options.SameRules.mk]

theorem shows_dump (hclosed : a.definition = none) : dump.Shows a := by
  simp only [Shows, dump, meets_bind, meets_get]
  split
  · rename_i hliterals
    simp [hliterals, reportLines, Untouched, hclosed, Options.SameRules.mk]
  · trivial

theorem interprets_loadAndReport (hclosed : a.definition = none)
    (hload : ∀ a', a'.definition = none → a.Retouches text a') :
    loadAndReport.Meets (a.Interprets text) (fun _ _ => True) True a := by
  simp only [loadAndReport, loadFromStorage, meets_bind, meets_get, meets_ofExcept, implies_true,
    and_true]
  intro content _
  cases content with
  | none => trivial
  | some blob =>
    simp only [load, meets_bind, meets_requireClosed, meets_get, meets_ofExcept_mapError,
      meets_setDictionary, meets_setFrames, meets_setMode, implies_true, and_true, true_and]
    intro _ _ _ _ _
    exact ⟨by simp, ⟨rfl, rfl⟩, hload _ hclosed⟩

theorem interprets_reset (hclosed : a.definition = none)
    (hreset : ∀ a', a'.definition = none ∧ a'.dictionary.memory.allocated = [] ∧
      a'.dictionary.head = none → a.Retouches text a') :
    (command .reset).Meets (a.Interprets text) (fun _ _ => True) True a := by
  simp only [command, reset, abort, meets_bind, meets_await, meets_setFrames, meets_get]
  simp only [hclosed, meets_setMode, meets_modify, meets_pure]
  exact ⟨by simp, ⟨rfl, rfl⟩, hreset _ ⟨rfl, Memory.allocated_clear _, rfl⟩⟩

theorem interprets_command (hclosed : a.definition = none) (hawaiting : a.awaiting = .nothing)
    {c : Command} (hcommand : a.classify text = .command c) :
    (command c).Meets (a.Interprets text) (fun _ _ => True) True a := by
  have hshows {x : Action Outcome} (h : x.Shows a) (hload : c ≠ .load) (hreset : c ≠ .reset) :
      x.Meets (a.Interprets text) (fun _ _ => True) True a := by
    refine h.imp fun _ a' h' => ⟨h'.1, h'.2.1, ?_⟩
    simp only [Retouches, hawaiting, hcommand]
    split
    · rename_i heq
      cases heq
      exact absurd rfl hload
    · rename_i heq
      cases heq
      exact absurd rfl hreset
    · exact h'.2.2
  cases c with
  | dump => exact hshows (shows_dump hclosed) (by simp) (by simp)
  | save => exact hshows (shows_saveAndReport hclosed false) (by simp) (by simp)
  | saveAutorun => exact hshows (shows_saveAndReport hclosed true) (by simp) (by simp)
  | load =>
    exact interprets_loadAndReport hclosed (by simp [Retouches, hawaiting, hcommand])
  | reset =>
    exact interprets_reset hclosed (by simp [Retouches, hawaiting, hcommand])
  | _ => exact hshows ⟨by simp, ⟨rfl, rfl⟩, rfl, hclosed⟩ (by simp) (by simp)

theorem interprets_interpret (hclosed : a.definition = none) (hawaiting : a.awaiting = .nothing) :
    (interpret (a.classify text)).Meets (a.Interprets text) (fun _ _ => True) True a := by
  cases htoken : a.classify text with
  | command c => exact interprets_command hclosed hawaiting htoken
  | compileWord word => trivial
  | unknown text => trivial
  | extended id =>
    have hsame {a' : Assembler} (h : a.Untouched a') : a.Retouches text a' := by
      simpa only [Retouches, hawaiting, htoken] using h
    simp only [interpret, meets_ite, meets_bind, meets_await, meets_pure]
    exact ⟨fun _ => ⟨by simp, ⟨rfl, rfl⟩, hsame ⟨rfl, hclosed⟩⟩,
      fun _ => ⟨by simp, ⟨rfl, rfl⟩, hsame ⟨rfl, hclosed⟩⟩⟩
  | _ =>
    have hsame {a' : Assembler} (h : a.Untouched a') : a.Retouches text a' := by
      simpa only [Retouches, hawaiting, htoken] using h
    exact ⟨by simp, ⟨rfl, rfl⟩, hsame ⟨rfl, hclosed⟩⟩

/-- What is awaited is taken before the name is used. -/
theorem interprets_named (hclosed : a.definition = none) {use : NameUse}
    (hawaiting : a.awaiting = .name use) :
    (named use text).Meets (a.Interprets text) (fun _ _ => True) True
      { a with awaiting := .nothing } := by
  cases use with
  | colon =>
    rw [named, meets_bind]
    apply (ensures_define id text).meets_ok
    rintro _ b ⟨-, -, hkeeps, hdefines⟩
    refine ⟨by simp, .of_eq hkeeps.options, ?_⟩
    simpa only [Retouches, hawaiting] using hdefines
  | «variable» =>
    rw [named, meets_bind]
    apply (adds_defineVariable text).meets_ok
    rintro _ b ⟨-, hkeeps, -, -, hadded⟩
    refine ⟨by simp, .of_eq hkeeps.options, ?_⟩
    simpa only [Retouches, hawaiting] using hadded
  | constant =>
    simp only [named, meets_bind, meets_get]
    split
    · trivial
    rename_i value rest hliterals
    rw [meets_bind]
    apply (adds_defineConstant text value).meets_ok
    rintro _ b ⟨-, hkeeps, -, -, body, hadded⟩
    simp only [meets_bind, meets_popLiteral, meets_get, meets_pure]
    refine ⟨fun _ => trivial, fun _ rest _ =>
      ⟨by simp, .of_eq hkeeps.options, ?_⟩⟩
    simp only [Retouches, hawaiting]
    exact ⟨body, hadded.allocated, hadded.head, hadded.definition, hadded.legal⟩
  | forget =>
    simp only [named, forget, meets_bind, meets_requireClosed, meets_get, meets_ofHalting,
      meets_setDictionary, meets_pure, implies_true, and_true, true_and]
    rintro - ⟨address, d⟩ hforget
    refine ⟨by simp, ⟨rfl, rfl⟩, ?_⟩
    simp only [Retouches, hawaiting]
    exact ⟨hclosed, Dictionary.prefix_of_forget_eq_ok hforget, address, hforget⟩
  | see =>
    simp only [named, reportLines, meets_bind, meets_get, meets_ofExcept, meets_pure, implies_true,
      and_true]
    intro _ _
    refine ⟨by simp, ⟨rfl, rfl⟩, ?_⟩
    simpa only [Retouches, hawaiting] using ⟨rfl, hclosed⟩

/-- Only a word that awaits an operand would be compiled. -/
theorem interprets_feed (hclosed : a.definition = none) (hmode : a.mode = .interpret)
    (hawaiting : a.awaiting ≠ .operand) (text : String) :
    (feed text).Meets (a.Interprets text) (fun _ _ => True) True a := by
  cases h : a.awaiting with
  | name use =>
    rw [feed, meets_bind, meets_takeAwaiting, h]
    exact interprets_named hclosed h
  | operand => exact absurd h hawaiting
  | text collected =>
    have hsame {a' : Assembler} (h' : a.Untouched a') : a.Retouches text a' := by
      simpa only [Retouches, h] using h'
    rw [feed, meets_bind, meets_takeAwaiting, h]
    simp only [collect, meets_bind, meets_ite, meets_refuse, meets_await, meets_pure, meets_get]
    refine ⟨fun _ => trivial, fun _ => ⟨fun _ => ?_, fun _ => ⟨fun hopen => ?_, fun _ => ?_⟩⟩⟩
    · exact ⟨by simp, ⟨rfl, rfl⟩, hsame ⟨rfl, hclosed⟩⟩
    · simp [isCompiling, hclosed] at hopen
    · exact ⟨by simp, ⟨rfl, rfl⟩, hsame ⟨rfl, hclosed⟩⟩
  | nothing =>
    exact .of_run_eq (run_feed_interpret h hmode text) (interprets_interpret hclosed h)

end Action

namespace Safe
variable {capacity : Capacity} {a : Assembler}

/-- A word of input is interpreted, or nothing comes of it. -/
theorem ensures_feed_closed (h : Safe capacity a) (hclosed : a.definition = none) (text : String) :
    (Action.feed text).Ensures (a.Interprets text)
      (fun _ a' => a' = { a with awaiting := .nothing }) a := by
  obtain ⟨-, hawaiting, hmode⟩ := h.closed hclosed
  have hfeed := Action.interprets_feed hclosed hmode hawaiting text
  exact (hfeed.and_ensures (h.ensures_feed text)).mono (fun _ _ h' => h'.1) (fun _ _ h' => h'.2)

/-- Closing a definition keeps all in order, unless an operand is awaited. -/
theorem settle_close (h : Safe capacity a) (hawaiting : a.awaiting ≠ .operand) :
    Safe capacity (Operation.close.settle a) := by
  refine Operation.of_ensures_settle ((Action.ensures_map _ _).mpr ?_)
  cases hdefinition : a.definition with
  | none => simpa [Action.close, hdefinition] using h
  | some definition =>
    obtain ⟨older, draft, hdefines, hlink⟩ := h.opened definition hdefinition
    have holder := (hdefines.linked_iff hlink).mp h.linked
    refine (Action.ensures_close hdefines).mono ?_ ?_
    · rintro _ a' ⟨body, -, hkeeps, hframes, hmode, hadded⟩
      refine ⟨.of_added (hkeeps.size.trans h.size) ?_ hframes ?_ hmode hadded,
        hadded.linked hlink holder⟩
      · rw [hkeeps.literals]
        exact h.literals
      · rwa [hkeeps.awaiting]
    · rintro _ _ ⟨rfl, -⟩
      exact h

end Safe

namespace InOrder
variable {capacity : Capacity} {options : Options} {storage : Storage} {a b : Assembler}

theorem safe (h : InOrder a b) (ha : Safe capacity a) : Safe capacity b := by
  induction h with
  | refl => exact ha
  | @perform b _ operation hop ih =>
    by_cases hclose : operation = .close
    · subst hclose
      exact ih.settle_close hop
    · exact ih.settle (hop.regular hclose)

/-- Wherever orderly operations lead, a word of input compiles nothing while no definition is open.
Only a name that a command has asked for changes the image, or a command that replaces it. -/
theorem interprets (h : InOrder (.new capacity options storage) a) (hclosed : a.definition = none)
    (text : String) :
    (∃ outcome a', (Action.feed text).run a = .ok outcome a' ∧
      (∀ start stop, outcome ≠ .compiled start stop) ∧ a.Retouches text a') ∨
    ∃ e a', (Action.feed text).run a = .error (.refused e) a' ∧ a'.dictionary = a.dictionary := by
  have hsafe : Safe capacity a := h.safe (.new capacity options storage)
  obtain ⟨outcome, a', hrun, h'⟩ | ⟨e, a', hrun, rfl⟩ :=
    (hsafe.ensures_feed_closed hclosed text).run_cases
  · exact .inl ⟨outcome, a', hrun, h'.outcome, h'.image⟩
  · exact .inr ⟨e, _, hrun, rfl⟩

/-- A definition is closed in the middle of a string, which then is reported and not compiled. -/
theorem interprets_string :
    let s : Assembler := .new ⟨32, by decide, by decide⟩ {} .empty
    let a := Operation.settleAll [.define "A", .feed ".\"", .close] s
    a.definition = none ∧ a.isCollecting = true ∧
      ∃ a', (Action.feed "x\"").run a = .ok (.report "x") a' ∧ a.Retouches "x\"" a' := by
  intro s a
  have hdefine : InOrder s ((Operation.define "A").settle s) := .perform .refl trivial
  have hquote : InOrder s (Operation.settleAll [.define "A", .feed ".\""] s) :=
    .perform hdefine trivial
  have hawaiting : (Operation.settleAll [.define "A", .feed ".\""] s).awaiting ≠ .operand := by
    decide +kernel
  have h : InOrder s a := .perform hquote (show Operation.close.Orderly _ from hawaiting)
  have hrun : (Action.feed "x\"").run a = .ok (.report "x") ((Operation.feed "x\"").settle a) :=
    Operation.run_feed_of_reply (by decide +kernel)
  have hclosed : a.definition = none := by decide +kernel
  refine ⟨hclosed, by decide +kernel, _, hrun, ?_⟩
  obtain ⟨outcome, a', hok, -, hretouches⟩ | ⟨e, a', hrefused, -⟩ := h.interprets hclosed "x\""
  · cases hrun.symm.trans hok
    exact hretouches
  · cases hrun.symm.trans hrefused

end InOrder

/-- After `LIT` the next word is taken for a number to be compiled, even if the definition is closed
in between. -/
theorem Operation.compiles_after_close :
    let s : Assembler := .new ⟨32, by decide, by decide⟩ {} .empty
    let a := settleAll [define "A", feed "LIT", close] s
    a.definition = none ∧ (feed "5").reply a = .ok (.outcome (.compiled 5 8)) ∧
      a.dictionary.memory.allocated = [0xff, 0xff, 1, 0x41, 0xf0] ∧
      ((feed "5").settle a).dictionary.memory.allocated =
        [0xff, 0xff, 1, 0x41, 0xf0, 0xbf, 0, 5] := by
  decide +kernel

end ForthAssembler
