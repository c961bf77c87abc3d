import ForthAssembler.Assembler.Feed
import ForthAssembler.Proofs.Assembler.Defining

/-! What words do while a definition is open. -/
namespace ForthAssembler
open Instr

/-- The word of a body that is compiled for an extended operation; the others await a word. -/
def Extended.symbol? : Extended → Option (Symbol Instr)
  | index => some (.plain .index)
  | forLoop => some (.control .forWord)
  | next => some (.control .nextWord)
  | leave => some (.control .breakWord)
  | text | literal => none

/-- What the next word is taken for behind an extended operation that awaits one. -/
def Extended.awaits? : Extended → Option Awaiting
  | literal => some .operand
  | text => some (.text none)
  | _ => none

/-- The word of a body, unless the definition ends here. -/
def CompileWord.symbol? : CompileWord → Option (Symbol Instr)
  | semicolon => none
  | beginWord => some .begin
  | ifWord => some (.control .ifWord)
  | elseWord => some (.control .elseWord)
  | thenWord => some (.control .thenWord)
  | untilWord => some (.control .untilWord)
  | againWord => some (.control .againWord)
  | whileWord => some (.control .whileWord)
  | repeatWord => some (.control .repeatWord)

/-- The word of a body that a token is. -/
def Token.symbol? (short : Bool) : Token → Option (Symbol Instr)
  | number value => some (.plain (Action.literalInstr short value))
  | word code => some (.plain (.call code))
  | primitive id => some (.plain (.primitive id))
  | extended id => (Extended.ofId? id).bind Extended.symbol?
  | compileWord w => w.symbol?
  | command _ | unknown _ => none

namespace Assembler

/-- What stands beside the words, the frames, the definition and what is awaited is the same. -/
structure Retains (a a' : Assembler) : Prop where
  size : a'.dictionary.memory.size = a.dictionary.memory.size
  options : a'.options = a.options
  literals : a'.literals = a.literals
  storage : a'.storage = a.storage

/-- The definition behind the bytes `older` goes on, or it has been closed. -/
structure Continues (older : List UInt8) (link : Link) (name : String) (a a' : Assembler) : Prop
    extends Retains a a' where
  outcome : (∃ draft, Defines id older link name draft a') ∨
    (a'.awaiting = .nothing ∧ a'.frames = [] ∧ a'.mode = .interpret ∧
      ∃ body, Added older link name body a')

section
variable {older : List UInt8} {link : Link} {name : String} {draft : Draft.Any Instr}
  {a a' : Assembler}

/-- What is awaited has nothing to do with the definition. -/
theorem Defines.await (h : Defines id older link name draft a) (awaiting : Awaiting) :
    Defines id older link name draft { a with awaiting } :=
  h.congr rfl rfl rfl rfl

theorem Keeps.retains (h : Keeps a a') : Retains a a' := ⟨h.size, h.options, h.literals, h.storage⟩

theorem Retains.trans {a'' : Assembler} (h : Retains a a') (h' : Retains a' a'') : Retains a a'' :=
  ⟨h'.size.trans h.size, h'.options.trans h.options, h'.literals.trans h.literals,
    h'.storage.trans h.storage⟩

theorem Defines.continues (h : Defines id older link name draft a') (hretains : Retains a a') :
    Continues older link name a a' :=
  ⟨hretains, .inl ⟨draft, h⟩⟩

theorem Continues.of_await {awaiting : Awaiting}
    (h : Continues older link name { a with awaiting } a') : Continues older link name a a' :=
  ⟨⟨h.size, h.options, h.literals, h.storage⟩, h.outcome⟩

end
end Assembler

namespace Action
open Assembler
variable {older : List UInt8} {link : Link} {name : String} {draft : Draft.Any Instr}
  {a : Assembler}

/-- A token is a word of the body, ends it, awaits the next word, or is refused. -/
theorem compile_cases (token : Token) (a : Assembler) :
    token = .compileWord .semicolon ∨
      (∃ word, token.symbol? a.options.shortLiterals = some word ∧
        (compile token).run a = (word.action id).run a) ∨
      (token ≠ .compileWord .semicolon ∧ token.symbol? a.options.shortLiterals = none ∧
        ((∃ op awaiting, token = .extended (Extended.id op) ∧ op.awaits? = some awaiting ∧
          compile token = do
            await awaiting
            return .done) ∨
        ∃ e, ¬ e.OutOfReach ∧ compile token = refuse e)) := by
  cases token with
  | number value => exact .inr (.inl ⟨_, rfl, rfl⟩)
  | word code => exact .inr (.inl ⟨_, rfl, rfl⟩)
  | primitive id => exact .inr (.inl ⟨_, rfl, rfl⟩)
  | extended id =>
    simp only [compile, Token.symbol?]
    cases hop : Extended.ofId? id with
    | none => exact .inr (.inr ⟨by simp, rfl, .inr ⟨.fieldOverflow _, not_false, rfl⟩⟩)
    | some op =>
      obtain rfl := Extended.ofId?_eq_some_iff.mp hop
      cases op with
      | text => exact .inr (.inr ⟨by simp, rfl, .inl ⟨.text, _, rfl, rfl, rfl⟩⟩)
      | literal => exact .inr (.inr ⟨by simp, rfl, .inl ⟨.literal, _, rfl, rfl, rfl⟩⟩)
      | _ => exact .inr (.inl ⟨_, rfl, rfl⟩)
  | compileWord word =>
    cases word with
    | semicolon => exact .inl rfl
    | _ => exact .inr (.inl ⟨_, rfl, rfl⟩)
  | command command => exact .inr (.inr ⟨by simp, rfl, .inr ⟨.unknownToken _, id, rfl⟩⟩)
  | unknown text => exact .inr (.inr ⟨by simp, rfl, .inr ⟨.unknownToken _, id, rfl⟩⟩)

theorem ensures_action_opened (h : Defines id older link name draft a) (word : Symbol Instr) :
    (word.action id).Ensures (fun _ a' => Continues older link name a a')
      (fun _ a' => a' = a) a := by
  apply (ensures_action h.code word).mono
  · intro _ a' hpost
    obtain ⟨after, -, hcode, hext, -⟩ := hpost
    exact (h.extends hext hcode).continues hext.toKeeps.retains
  · exact fun _ _ hrefused => hrefused.1

theorem ensures_close_opened (h : Defines id older link name draft a)
    (hawaiting : a.awaiting = .nothing) :
    close.Ensures (fun _ a' => Continues older link name a a') (fun _ a' => a' = a) a := by
  apply (ensures_close h).mono
  · intro _ a' hpost
    obtain ⟨b, -, hkeeps, hframes, hmode, hadded⟩ := hpost
    exact ⟨hkeeps.retains, .inr ⟨hkeeps.awaiting.trans hawaiting, hframes, hmode, _, hadded⟩⟩
  · exact fun _ _ hrefused => hrefused.1

theorem ensures_compile_opened (h : Defines id older link name draft a)
    (hawaiting : a.awaiting = .nothing) (token : Token) :
    (compile token).Ensures (fun _ a' => Continues older link name a a')
      (fun _ a' => a' = a) a := by
  obtain rfl | ⟨word, -, hrun⟩ | ⟨-, -, ⟨-, awaiting, -, -, hcompile⟩ | ⟨e, -, hcompile⟩⟩ :=
    compile_cases token a
  · exact ensures_close_opened h hawaiting
  · exact Meets.of_run_eq hrun (ensures_action_opened h word)
  · rw [hcompile]
    exact (h.await awaiting).continues ⟨rfl, rfl, rfl, rfl⟩
  · rw [hcompile]
    exact rfl

theorem ensures_collect_opened (h : Defines id older link name draft a) (collected : Option String)
    (word : String) :
    (collect collected word).Ensures (fun _ a' => Continues older link name a a')
      (fun _ a' => a' = a) a := by
  simp only [collect, ensures_bind, ensures_ite, ensures_refuse, ensures_await, ensures_pure,
    ensures_get]
  refine ⟨fun _ => trivial, fun _ => ⟨fun _ => ?_, fun _ => ⟨fun _ => ?_, fun _ => ?_⟩⟩⟩
  · exact (h.await _).continues ⟨rfl, rfl, rfl, rfl⟩
  · exact ensures_action_opened h (.plain (.text _))
  · exact h.continues ⟨rfl, rfl, rfl, rfl⟩

/-- A word that takes a name is refused, or only shows something. -/
theorem ensures_named_opened (hopen : a.definition ≠ none) (use : NameUse) (text : String) :
    (named use text).Ensures
      (fun outcome a' => a' = a ∧ use = .see ∧ ∃ lines, outcome = reportLines lines)
      (fun _ a' => a' = a) a := by
  cases use with
  | colon => simp [named, define, hopen]
  | «variable» => simp [named, defineVariable, hopen]
  | constant =>
    simp only [named, ensures_bind, ensures_get]
    split
    · simp
    · simp [defineConstant, hopen]
  | forget => simp [named, forget, hopen]
  | see =>
    simp only [named, ensures_bind, ensures_get, ensures_ofExcept, ensures_pure]
    exact ⟨fun lines _ => ⟨trivial, trivial, lines, rfl⟩, fun _ _ => trivial⟩

/-- While a definition is open, a word of input changes nothing but this definition. -/
theorem ensures_feed_opened (h : Defines id older link name draft a) (text : String) :
    (feed text).Ensures (fun _ a' => Continues older link name a a')
      (fun _ a' => a' = { a with awaiting := .nothing }) a := by
  have hb := h.await .nothing
  have hopen : a.definition ≠ none := by simp [h.definition]
  rw [feed, ensures_bind, ensures_takeAwaiting]
  split
  · apply (ensures_named_opened (a := { a with awaiting := .nothing }) hopen _ text).imp
    rintro _ _ ⟨rfl, -⟩
    exact hb.continues ⟨rfl, rfl, rfl, rfl⟩
  · simp only [ensures_bind, ensures_get]
    split
    · simp
    · exact (ensures_action_opened hb (.plain (.literal _))).imp fun _ _ => Continues.of_await
  · exact (ensures_collect_opened hb _ text).imp fun _ _ => Continues.of_await
  · simp only [ensures_bind, ensures_get]
    split
    · exact (ensures_compile_opened hb rfl _).imp fun _ _ => Continues.of_await
    · rename_i hmode
      simp [h.mode] at hmode

theorem ensures_finish_opened (h : Defines id older link name draft a) :
    finish.Ensures (fun _ a' => Continues older link name a a')
      (fun _ a' => a' = { a with awaiting := .nothing }) a := by
  rw [finish, ensures_bind, ensures_takeAwaiting]
  split
  · simp
  · simp
  · simp
  · simp only [ensures_bind, ensures_get, ensures_ite, ensures_map, ensures_pure]
    refine ⟨fun _ => ?_, fun hclosed => ?_⟩
    · exact (ensures_close_opened (h.await .nothing) rfl).imp fun _ _ => Continues.of_await
    · simp [Assembler.isCompiling, h.definition] at hclosed

end Action
end ForthAssembler
