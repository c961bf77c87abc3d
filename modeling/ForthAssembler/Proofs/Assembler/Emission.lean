import ForthAssembler.Proofs.Assembler.Opened
import ForthAssembler.Proofs.Assembler.Patching

/-! The instructions that a word of input stands for, and the range of the image that its outcome
gives for them. -/
namespace ForthAssembler
open Instr Text

/-- Where the innermost loop goes back to. -/
def Frame.innermostTop (frames : List Frame) : Nat := (frames.findSome? top?).getD 0

namespace Control

/-- The instructions of a control word. Branches that are to be filled in later go to offset 0. -/
def code (frames : List Frame) : Control → List Instr
  | ifWord | whileWord => [.jumpZero 0]
  | elseWord => [.jump 0]
  | thenWord => []
  | untilWord => [.jumpZero (Frame.innermostTop frames)]
  | againWord | repeatWord => [.jump (Frame.innermostTop frames)]
  | forWord => [.forLoop]
  | nextWord => [.next, .jump (Frame.innermostTop frames)]
  | breakWord => ((Frame.innermost frames).map fun loop => loop.leaveCode 0).getD []

theorem code_of_plan {word : Control} {here : Nat} {frames : List Frame} {plan : Plan}
    (h : word.plan here frames = .ok plan) : plan.code = word.code frames := by
  unfold Control.plan at h
  split at h
  case h_12 =>
    split at h
    · rename_i hleave
      cases h
      rw [Frame.leaveLoop?_eq] at hleave
      obtain ⟨loop, hloop, heq⟩ := Option.map_eq_some_iff.mp hleave
      cases heq
      simp only [code, hloop, Option.map_some, Option.getD_some]
    · cases h
  case h_13 => cases h
  all_goals
    cases h
    rfl

end Control

/-- The instructions of a word of a body. -/
def Symbol.code (frames : List Frame) : Symbol Instr → List Instr
  | .plain instr => [instr]
  | .begin => []
  | .control word => word.code frames

/-- The instructions that a token stands for while a definition is open. -/
def Token.code (short : Bool) (frames : List Frame) (token : Token) : List Instr :=
  match token.symbol? short with
  | some symbol => symbol.code frames
  | none => if token = .compileWord .semicolon then [.ret] else []

namespace Assembler

/-- The instructions that a word of input stands for. Words are added whole only outside of
definitions; other code is compiled only inside of them. -/
def emission (a : Assembler) (text : String) : List Instr :=
  match a.isCompiling, a.awaiting with
  | false, .name .variable => Action.variableCode a.options.shortLiterals a.here text
  | false, .name .constant =>
    (a.literals.head?.map (Action.constantCode a.options.shortLiterals)).getD []
  | true, .operand =>
    ((Token.parseNumber? a.options.radix text).map fun value => [.literal value]).getD []
  | true, .text collected =>
    ((Action.unquote? text).map fun part =>
      [.text (utf8 ((collected.map (· ++ " ")).getD "" ++ part))]).getD []
  | true, .nothing => (a.classify text).code a.options.shortLiterals a.frames
  | _, _ => []

/-- The header of a word that is added whole. -/
def preface (a : Assembler) (text : String) : List UInt8 :=
  match a.isCompiling, a.awaiting with
  | false, .name .variable | false, .name .constant => Entry.header a.dictionary.head false text
  | _, _ => []

/-- The cell of a variable, behind its code. -/
def appendix (a : Assembler) : List UInt8 :=
  match a.isCompiling, a.awaiting with
  | false, .name .variable => Cell.bytes 0
  | _, _ => []

end Assembler

/-- The image has gained a header, code and data from an offset on. The code ends at `stop`, and is
listed there as these instructions. -/
structure Dictionary.Gains (d : Dictionary) (start : Nat) (header : List UInt8) (code : List Instr)
    (data : List UInt8) (stop : Nat) : Prop where
  gained : d.memory.allocated.drop start = header ++ bytesAll code ++ data
  stop_eq : stop = start + header.length + sizeAll code
  trace : d.trace (start + header.length) stop = listing (start + header.length) code

theorem Dictionary.gains_of_allocated {d : Dictionary} {front header data : List UInt8}
    {code : List Instr} (halloc : d.memory.allocated = front ++ (header ++ bytesAll code ++ data))
    (hcode : ∀ i ∈ code, i.Encodable) :
    d.Gains front.length header code data (front.length + header.length + sizeAll code) where
  gained := by rw [halloc, List.drop_left]
  stop_eq := rfl
  trace := by
    have hsplit : d.memory.allocated = (front ++ header) ++ (bytesAll code ++ data) := by
      simp [halloc]
    have hrange : d.memory.range (front.length + header.length)
        (front.length + header.length + sizeAll code) = bytesAll code := by
      rw [Memory.range_eq, hsplit, ← List.length_append, List.take_length_add_append,
        List.drop_left, ← length_bytesAll, List.take_left]
    rw [trace, hrange, disassemble_bytesAll hcode]

theorem Dictionary.Gains.here_eq {d : Dictionary} {start stop : Nat} {header data : List UInt8}
    {code : List Instr} (h : d.Gains start header code data stop) (hstart : start ≤ d.here) :
    d.here = stop + data.length := by
  have hlength := congrArg List.length h.gained
  have hhere : d.memory.allocated.length = d.here := Memory.length_allocated _
  rw [List.length_drop, hhere] at hlength
  simp only [List.length_append, length_bytesAll] at hlength
  have hstop := h.stop_eq
  omega

namespace Outcome

/-- The range of the image that is reported, if any. -/
def range? : Outcome → Option (Nat × Nat)
  | compiled start stop | defined _ _ start stop => some (start, stop)
  | done | execute _ | report _ => none

/-- What is reported is where a header and the code behind it have been appended; without a report
there was no code. -/
def Accounts (outcome : Outcome) (here : Nat) (header : List UInt8) (code : List Instr)
    (data : List UInt8) (d : Dictionary) : Prop :=
  match outcome.range? with
  | none => code = []
  | some (start, stop) => start = here ∧ d.Gains here header code data stop

/-- Just the code has been appended, and is reported; without a report there was none. -/
def Emits (outcome : Outcome) (here : Nat) (code : List Instr) (d : Dictionary) : Prop :=
  match outcome.range? with
  | none => code = [] ∧ d.here = here
  | some (start, stop) => start = here ∧ stop = d.here ∧ d.Gains here [] code [] stop

theorem emits_of_range?_eq_none {outcome : Outcome} (h : outcome.range? = none) (d : Dictionary) :
    outcome.Emits d.here [] d := by
  unfold Emits
  rw [h]
  exact ⟨rfl, rfl⟩

theorem accounts_of_range?_eq_none {outcome : Outcome} (h : outcome.range? = none) (here : Nat)
    (header data : List UInt8) (d : Dictionary) : outcome.Accounts here header [] data d := by
  unfold Accounts
  rw [h]

theorem Emits.accounts {outcome : Outcome} {here : Nat} {code : List Instr} {d : Dictionary}
    (h : outcome.Emits here code d) : outcome.Accounts here [] code [] d := by
  unfold Emits at h
  unfold Accounts
  split at h
  · exact h.1
  · exact ⟨h.1, h.2.2⟩

theorem Emits.here_eq {outcome : Outcome} {here : Nat} {code : List Instr} {d : Dictionary}
    (h : outcome.Emits here code d) : d.here = here + sizeAll code := by
  unfold Emits at h
  split at h
  · obtain ⟨rfl, hhere⟩ := h
    exact hhere
  · obtain ⟨-, rfl, hgains⟩ := h
    exact hgains.stop_eq

theorem emits_of_allocated {outcome : Outcome} {d : Dictionary} {front : List UInt8}
    {code : List Instr} (houtcome : outcome.range? = some (front.length, d.here))
    (halloc : d.memory.allocated = front ++ bytesAll code) (hcode : ∀ i ∈ code, i.Encodable) :
    outcome.Emits front.length code d := by
  have hgains : d.Gains front.length [] code [] (front.length + 0 + sizeAll code) :=
    Dictionary.gains_of_allocated (by simpa using halloc) hcode
  have hhere : d.here = front.length + 0 + sizeAll code := by
    have hlength : d.memory.allocated.length = d.here := Memory.length_allocated _
    rw [← hlength, halloc]
    simp
  unfold Emits
  rw [houtcome]
  refine ⟨rfl, rfl, ?_⟩
  rwa [hhere]

end Outcome

namespace Assembler
variable {older : List UInt8} {link : Link} {name : String} {draft : Draft.Any Instr}
  {a a' : Assembler}

/-- The sites of open branches are before the cursor. -/
theorem Defines.hole_le (h : a.Defines id older link name draft) :
    ∀ hole ∈ a.frames.flatMap Frame.holes, hole.1 + 2 ≤ a.here := by
  obtain ⟨k, d⟩ := draft
  intro hole hhole
  have hhere : a.here = (older ++ Entry.header link true name).length + d.size id := h.code.here_eq
  have hsize := Frame.size_of_mem_holes hhole
  rw [h.code.frames] at hhole
  have hlocated := (d.holes_subperm id _).subset hhole
  have hle := (le_of_mem_located hlocated).2
  rw [hsize, d.sizeAll_layout] at hle
  omega

theorem Adds.gains {code : List Instr} {data : List UInt8} {address : Nat}
    (h : a.Adds name code data address a') :
    a'.dictionary.Gains a.here (Entry.header a.dictionary.head false name) code data
      (a'.here - data.length) := by
  have hfront : a.dictionary.memory.allocated.length = a.here := Memory.length_allocated _
  have halloc := h.added.allocated
  rw [List.append_assoc, ← List.append_assoc (Entry.header _ _ _)] at halloc
  have hgains := Dictionary.gains_of_allocated halloc h.encodable
  rw [hfront] at hgains
  have hle : a.here ≤ a'.here := by
    have hlength : a'.dictionary.memory.allocated.length = a'.here := Memory.length_allocated _
    rw [← hlength, halloc, List.length_append, hfront]
    exact Nat.le_add_right _ _
  have hhere : a'.here = a.here + (Entry.header a.dictionary.head false name).length +
      sizeAll code + data.length := hgains.here_eq hle
  rwa [hhere, Nat.add_sub_cancel]

end Assembler

namespace Action
open Assembler Outcome
variable {older : List UInt8} {link : Link} {name : String} {draft : Draft.Any Instr}
  {a : Assembler}

theorem emits_emit_toward (code : List Instr) (target : Nat) {sites : List Nat}
    (hsites : ∀ site ∈ sites, site + 2 ≤ a.here) :
    (emit code (Control.toward target sites)).Ensures
      (fun outcome a' => outcome.Emits a.here code a'.dictionary) (fun _ _ => True) a := by
  have hlength : a.dictionary.memory.allocated.length = a.here := Memory.length_allocated _
  apply (ensures_emit_toward code target hsites).imp
  intro outcome a' hpost
  obtain ⟨-, -, halloc, rfl, hcode⟩ := hpost
  have hfront : (sites.foldl (redirect a.dictionary.memory.allocated target)
      a.dictionary.memory.allocated).length = a.here := by
    rw [length_foldl_redirect (by rwa [hlength]), hlength]
  rw [← hfront]
  exact emits_of_allocated (by rw [hfront]; rfl) halloc hcode

theorem emits_emit (code : List Instr) :
    (emit code []).Ensures
      (fun outcome a' => outcome.Emits a.here code a'.dictionary) (fun _ _ => True) a :=
  @emits_emit_toward a code 0 [] (by simp)

theorem emits_control (hholes : ∀ hole ∈ a.frames.flatMap Frame.holes, hole.1 + 2 ≤ a.here)
    (word : Control) :
    (control word).Ensures
      (fun outcome a' => outcome.Emits a.here (word.code a.frames) a'.dictionary)
      (fun _ _ => True) a := by
  simp only [control, ensures_bind, ensures_get, ensures_ofExcept, implies_true, and_true]
  intro plan hplan
  obtain ⟨target, closed, kept, opened, hpatches, hclosed, -, -⟩ := Control.plan_holes hplan
  rw [hpatches, Control.code_of_plan hplan]
  apply (emits_emit_toward (word.code a.frames) target (Frame.sites_le hclosed hholes)).imp
  intro outcome a' hemits
  exact hemits

theorem emits_action (hholes : ∀ hole ∈ a.frames.flatMap Frame.holes, hole.1 + 2 ≤ a.here)
    (word : Symbol Instr) :
    (word.action id).Ensures
      (fun outcome a' => outcome.Emits a.here (word.code a.frames) a'.dictionary)
      (fun _ _ => True) a := by
  cases word with
  | plain instr => exact emits_emit [instr]
  | begin =>
    simp only [Symbol.action, openLoop, ensures_bind, ensures_get, ensures_ite, ensures_refuse,
      ensures_setFrames, ensures_pure]
    exact ⟨fun _ => trivial, fun _ => emits_of_range?_eq_none rfl _⟩
  | control word => exact emits_control hholes word

/-- What is reported of a definition that is closed is the return. -/
theorem meets_close_range :
    close.Meets (fun outcome _ => outcome.range? = some (a.here, a.here + 1))
      (fun _ _ => True) True a := by
  simp only [close, meets_bind, meets_get]
  split
  · rw [meets_bind]
    apply (emits_emit [.ret]).meets.imp
    intro outcome a' hemits
    have hhere : a'.here = a.here + 1 := hemits.here_eq
    simp only [meets_bind, meets_get, meets_ofChecked, meets_setDictionary, meets_modify,
      meets_pure, hhere, implies_true, and_true]
    exact fun _ _ => rfl
  · trivial

theorem emits_close (h : Defines id older link name draft a) :
    close.Ensures (fun outcome a' => outcome.Emits a.here [.ret] a'.dictionary)
      (fun _ _ => True) a := by
  apply (meets_close_range.and_ensures (ensures_close h)).mono ?_ fun _ _ _ => trivial
  intro outcome a' hpost
  obtain ⟨hrange, b, rfl, -, -, -, hadded⟩ := hpost
  have hhere : a.here = older.length + (Entry.nameOffset + (utf8 name).length) + b.size id := by
    rw [Assembler.here, Dictionary.here, h.code.here_eq, List.length_append, Entry.length_header]
    rfl
  -- The header is revealed now, so that the bytes before the return keep only their length.
  have hfront : (older ++ Entry.header link false name ++ bytesAll (b.layout id
      (older.length + (Entry.nameOffset + (utf8 name).length)) 0)).length = a.here := by
    rw [hhere]
    simp [Entry.length_header, Nat.add_assoc]
  have halloc := hadded.allocated
  rw [bytesAll_append, ← List.append_assoc] at halloc
  have hhere' : a'.dictionary.here = a.here + 1 := by
    have hlength : a'.dictionary.memory.allocated.length = a'.dictionary.here :=
      Memory.length_allocated _
    rw [← hlength, halloc, List.length_append, hfront]
    rfl
  rw [← hfront]
  refine emits_of_allocated ?_ halloc (by simp [Instr.Encodable])
  rw [hfront, hhere', hrange]

theorem emits_compile (h : Defines id older link name draft a) (token : Token) :
    (compile token).Ensures
      (fun outcome a' =>
        outcome.Emits a.here (token.code a.options.shortLiterals a.frames) a'.dictionary)
      (fun _ _ => True) a := by
  obtain rfl | ⟨word, hword, hrun⟩ | ⟨hnot, hnone, hrest⟩ := compile_cases token a
  · exact emits_close h
  · apply Meets.of_run_eq hrun
    rw [Token.code, hword]
    exact emits_action h.hole_le word
  · have hcode : token.code a.options.shortLiterals a.frames = [] := by
      rw [Token.code, hnone]
      exact if_neg hnot
    obtain ⟨op, awaiting, -, -, hcompile⟩ | ⟨e, -, hcompile⟩ := hrest
    · rw [hcompile, hcode, ensures_bind, ensures_await, ensures_pure]
      exact emits_of_range?_eq_none rfl _
    · rw [hcompile]
      trivial

/-- While a definition is open, a word appends just the code that it stands for. -/
theorem emits_feed_opened (h : Defines id older link name draft a) (text : String) :
    (feed text).Ensures
      (fun outcome a' => outcome.Emits a.here (a.emission text) a'.dictionary)
      (fun _ _ => True) a := by
  have hopen : a.definition ≠ none := by simp [h.definition]
  have hcompiling : a.isCompiling = true := by simp [Assembler.isCompiling, h.definition]
  have hb := h.await .nothing
  rw [feed, ensures_bind, ensures_takeAwaiting]
  cases hawaiting : a.awaiting with
  | name use =>
    simp only [Assembler.emission, hcompiling, hawaiting]
    apply (ensures_named_opened (a := { a with awaiting := .nothing }) hopen use text).mono
      ?_ fun _ _ _ => trivial
    intro outcome a' hpost
    obtain ⟨rfl, -, lines, rfl⟩ := hpost
    exact emits_of_range?_eq_none rfl _
  | operand =>
    simp only [Assembler.emission, hcompiling, hawaiting, ensures_bind, ensures_get]
    cases Token.parseNumber? a.options.radix text with
    | none => trivial
    | some value => exact emits_emit [.literal value]
  | text collected =>
    simp only [Assembler.emission, hcompiling, hawaiting, collect, ensures_bind, ensures_ite,
      ensures_refuse, ensures_await, ensures_pure, ensures_get]
    refine ⟨fun _ => trivial, fun _ => ⟨fun hpart => ?_, fun hpart => ⟨fun _ => ?_, ?_⟩⟩⟩
    · rw [Option.isNone_iff_eq_none.mp hpart]
      exact emits_of_range?_eq_none rfl _
    · obtain ⟨part, hpart⟩ := Option.ne_none_iff_exists'.mp (by simpa using hpart)
      rw [hpart]
      exact emits_emit _
    · intro hclosed
      exact absurd hcompiling hclosed
  | nothing =>
    simp only [Assembler.emission, hcompiling, hawaiting, ensures_bind, ensures_get]
    split
    · exact emits_compile hb _
    · rename_i hmode
      cases h.mode.symm.trans hmode

/-- Nothing is reported as compiled. -/
def Silent (x : Action Outcome) : Prop :=
  ∀ a, x.Meets (fun outcome _ => outcome.range? = none) (fun _ _ => True) True a

theorem silent_pure {outcome : Outcome} (h : outcome.range? = none) :
    (pure outcome : Action Outcome).Silent := fun _ => h

theorem silent_refuse (e : Error) : (refuse e : Action Outcome).Silent := fun _ => trivial

/-- Only what comes last is an outcome. -/
theorem Silent.bind {α : Type} {x : Action α} {f : α → Action Outcome} (h : ∀ v, (f v).Silent) :
    (x >>= f).Silent := by
  intro a
  rw [meets_bind]
  unfold Meets
  split
  · exact h _ _
  · trivial
  · trivial

theorem silent_command (c : Command) : (command c).Silent := by
  have hdone {α : Type} (x : Action α) : (x >>= fun _ => pure Outcome.done).Silent :=
    .bind fun _ => silent_pure rfl
  cases c with
  | colon => exact hdone _
  | «variable» => exact hdone _
  | constant => exact hdone _
  | forget => exact hdone _
  | see => exact hdone _
  | words => exact .bind fun _ => silent_pure rfl
  | dump =>
    refine .bind fun a => ?_
    split
    · exact .bind fun _ => .bind fun _ => .bind fun _ => silent_pure rfl
    · exact silent_refuse _
  | save => exact .bind fun _ => silent_pure rfl
  | saveAutorun => exact .bind fun _ => silent_pure rfl
  | load => exact .bind fun _ => .bind fun _ => silent_pure rfl
  | hex => exact hdone _
  | decimal => exact hdone _
  | reset => exact hdone _
  | query => exact .bind fun _ => silent_pure rfl
  | trace => exact .bind fun _ => .bind fun _ => silent_pure rfl

theorem silent_interpret (token : Token) : (interpret token).Silent := by
  cases token with
  | number value => exact .bind fun _ => silent_pure rfl
  | word code => exact silent_pure rfl
  | primitive id => exact silent_pure rfl
  | extended id =>
    simp only [interpret]
    split
    · exact .bind fun _ => silent_pure rfl
    · exact silent_pure rfl
  | compileWord word => exact silent_refuse _
  | command c => exact silent_command c
  | unknown text => exact silent_refuse _

theorem accounts_variable (name : String) :
    (named .variable name).Ensures
      (fun outcome a' => outcome.Accounts a.here (Entry.header a.dictionary.head false name)
        (variableCode a.options.shortLiterals a.here name) (Cell.bytes 0) a'.dictionary)
      (fun _ _ => True) a := by
  simp only [named, ensures_bind]
  apply (ensures_defineVariable_code name).mono ?_ fun _ _ _ => trivial
  intro address a' hadds
  exact ⟨hadds.address, hadds.gains⟩

theorem accounts_constant (name : String) :
    (named .constant name).Ensures
      (fun outcome a' => outcome.Accounts a.here (Entry.header a.dictionary.head false name)
        ((a.literals.head?.map (constantCode a.options.shortLiterals)).getD []) [] a'.dictionary)
      (fun _ _ => True) a := by
  simp only [named, ensures_bind, ensures_get]
  cases hliterals : a.literals with
  | nil => trivial
  | cons value rest =>
    rw [ensures_bind]
    apply (ensures_defineConstant_code name value).mono ?_ fun _ _ _ => trivial
    intro address a' hadds
    simp only [ensures_bind, ensures_popLiteral, ensures_get, ensures_pure, implies_true, true_and]
    intro _ _ _
    exact ⟨hadds.address, hadds.gains⟩

/-- While no definition is open, a word adds a whole word, whose header is in the range, or compiles
nothing. -/
theorem accounts_feed_closed (hclosed : a.definition = none) (hmode : a.mode = .interpret)
    (hoperand : a.awaiting ≠ .operand) (text : String) :
    (feed text).Meets
      (fun outcome a' => outcome.Accounts a.here (a.preface text) (a.emission text) a.appendix
        a'.dictionary)
      (fun _ _ => True) True a := by
  have hcompiling : a.isCompiling = false := by simp [Assembler.isCompiling, hclosed]
  have hsilent {x : Action Outcome} {b : Assembler} (hx : x.Silent) (header data : List UInt8) :
      x.Meets (fun outcome a' => outcome.Accounts a.here header [] data a'.dictionary)
        (fun _ _ => True) True b :=
    (hx b).imp fun _ _ hrange => accounts_of_range?_eq_none hrange _ _ _ _
  rw [feed, meets_bind, meets_takeAwaiting]
  cases hawaiting : a.awaiting with
  | name use =>
    cases use with
    | colon =>
      simp only [Assembler.emission, hcompiling, hawaiting]
      exact hsilent (.bind fun _ => silent_pure rfl) _ _
    | «variable» =>
      simp only [Assembler.emission, Assembler.preface, Assembler.appendix, hcompiling, hawaiting]
      exact (accounts_variable text).meets
    | constant =>
      simp only [Assembler.emission, Assembler.preface, Assembler.appendix, hcompiling, hawaiting]
      exact (accounts_constant text).meets
    | forget =>
      simp only [Assembler.emission, hcompiling, hawaiting]
      exact hsilent (.bind fun _ => silent_pure rfl) _ _
    | see =>
      simp only [Assembler.emission, hcompiling, hawaiting]
      exact hsilent (.bind fun _ => .bind fun _ => silent_pure rfl) _ _
  | operand => exact absurd hawaiting hoperand
  | text collected =>
    simp only [Assembler.emission, hcompiling, hawaiting, collect, meets_bind, meets_ite,
      meets_refuse, meets_await, meets_pure, meets_get]
    refine ⟨fun _ => trivial, fun _ => ⟨fun _ => ?_, fun _ => ⟨fun hopen => ?_, fun _ => ?_⟩⟩⟩
    · exact accounts_of_range?_eq_none rfl _ _ _ _
    · exact absurd (hcompiling.symm.trans hopen) Bool.false_ne_true
    · exact accounts_of_range?_eq_none rfl _ _ _ _
  | nothing =>
    simp only [Assembler.emission, hcompiling, hawaiting, meets_bind, meets_get]
    split
    · rename_i hcompile
      cases hmode.symm.trans hcompile
    · exact hsilent (silent_interpret _) _ _

end Action
end ForthAssembler
