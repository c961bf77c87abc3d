import ForthAssembler.Proofs.Assembler.Change
import ForthAssembler.Session.Operation

/-! What words and operations ask for, and that this is what is done. -/
namespace ForthAssembler
open Instr

/-- What a token that is accepted in a mode does to the literals. -/
def Token.move : Mode → Token → Move
  | .interpret, .number value => .push value
  | .interpret, .command .dump => .pop 2
  | .interpret, .command .reset => .clear
  | _, _ => .stay

/-- In a definition numbers are compiled. -/
theorem Token.move_compile (token : Token) : token.move .compile = .stay := by
  cases token <;> rfl

/-- Whether a token asks to save the image, and its latest word to run. -/
def Token.saveFlag? : Token → Option Bool
  | .command .save => some false
  | .command .saveAutorun => some true
  | _ => none

/-- Whether a token sets an option. -/
def Token.IsOption : Token → Prop
  | .command .hex | .command .decimal | .command .trace => True
  | _ => False

/-- What a command has the next word taken for. -/
def Command.awaits? : Command → Option Awaiting
  | .colon => some (.name .colon)
  | .variable => some (.name .variable)
  | .constant => some (.name .constant)
  | .forget => some (.name .forget)
  | .see => some (.name .see)
  | .reset => some .nothing
  | _ => none

namespace Token

/-- What a token has the next word taken for. -/
def awaits? : Mode → Token → Option Awaiting
  | .compile, extended id => (Extended.ofId? id).bind Extended.awaits?
  | .interpret, extended id => if id = Extended.text.id then some (.text none) else none
  | .interpret, command c => c.awaits?
  | _, _ => none

/-- Only the words of the dictionary stand for a branch or a call. -/
theorem eq_word_of_symbol? {token : Token} {short : Bool} {instr : Instr}
    (h : token.symbol? short = some (.plain instr)) :
    ∀ target ∈ instr.target?, token = .word target := by
  intro target htarget
  cases token with
  | number value =>
    obtain rfl := Symbol.plain.inj (Option.some.inj h)
    unfold Action.literalInstr at htarget
    split at htarget <;> cases htarget
  | word code =>
    obtain rfl := Symbol.plain.inj (Option.some.inj h)
    rw [Option.some.inj htarget]
  | primitive id =>
    obtain rfl := Symbol.plain.inj (Option.some.inj h)
    cases htarget
  | extended id =>
    obtain ⟨op, -, hop⟩ := Option.bind_eq_some_iff.mp h
    cases op <;> cases hop
    cases htarget
  | compileWord word => cases word <;> cases h
  | command c => cases h
  | unknown text => cases h

/-- A token that is compiled awaits nothing. -/
theorem awaits?_of_symbol? {token : Token} {short : Bool} {word : Symbol Instr}
    (h : token.symbol? short = some word) : token.awaits? .compile = none := by
  cases token with
  | extended id =>
    obtain ⟨op, hop, hword⟩ := Option.bind_eq_some_iff.mp h
    rw [awaits?, hop]
    cases op with
    | text => cases hword
    | literal => cases hword
    | _ => rfl
  | _ => rfl

/-- What a token asks for in a mode. -/
def demand (mode : Mode) (token : Token) : Demand where
  move := token.move mode
  awaits := token.awaits? mode
  calls code := token = .word code
  compiles := mode = .compile
  stores := mode = .interpret ∧ token.saveFlag?.isSome
  configures := mode = .interpret ∧ token.IsOption

theorem interprets_demand (token : Token) : (token.demand .interpret).Interprets := by
  refine ⟨nofun, ?_⟩
  cases token with
  | extended id =>
    simp only [demand, awaits?]
    split <;> nofun
  | command c => cases c <;> nofun
  | _ => nofun

end Token

theorem Dictionary.not_outOfReach_of_see {d : Dictionary} {foldCase : Bool} {name : String}
    {e : Error} (h : d.see foldCase name = .error e) : ¬ e.OutOfReach := by
  unfold see at h
  split at h
  · cases h
    exact id
  · cases h

namespace Assembler

/-- What a word of input that is accepted does to the literals. -/
def move (a : Assembler) (word : String) : Move :=
  match a.awaiting with
  | .name .constant => .pop 1
  | .name _ | .operand | .text _ => .stay
  | .nothing => (a.classify word).move a.mode

/-- What a word of input asks for. -/
def demand (a : Assembler) (word : String) : Demand :=
  match a.awaiting with
  | .name use => { move := a.move word, opens := use = .colon, forgets := use = .forget }
  | .operand => { compiles := True }
  | .text collected => {
      awaits := if (Action.unquote? word).isSome then none
        else some (.text (some ((collected.map (· ++ " ")).getD "" ++ word)))
      compiles := a.definition ≠ none }
  | .nothing => (a.classify word).demand a.mode

/-- A word of input moves the literals as it asks for. -/
theorem move_demand (a : Assembler) (word : String) : (a.demand word).move = a.move word := by
  unfold demand
  split <;> simp [move, *, Token.demand]

/-- Nothing is compiled while no definition is open. -/
theorem interprets_demand {a : Assembler} (hclosed : a.definition = none)
    (hmode : a.mode = .interpret) (hawaiting : a.awaiting ≠ .operand) (word : String) :
    (a.demand word).Interprets := by
  unfold demand
  split
  · exact ⟨id, nofun⟩
  · contradiction
  · refine ⟨not_not_intro hclosed, ?_⟩
    split <;> nofun
  · rw [hmode]
    exact Token.interprets_demand _

end Assembler

namespace Action
open Assembler
variable {α β : Type} {a : Assembler}

theorem does_compile (token : Token) : (compile token).Does (token.demand .compile) a a := by
  have hmove : Move.stay = (token.demand .compile).move := token.move_compile.symm
  obtain rfl | ⟨word, hword, hrun⟩ |
      ⟨-, -, ⟨op, awaiting, rfl, hop, hcompile⟩ | ⟨e, he, hcompile⟩⟩ :=
    compile_cases token a
  · exact does_close.mono { move := hmove, compiles := fun _ => rfl }
  · apply Does.of_run_eq hrun
    refine (does_action word).mono { move := hmove, awaits := ?_, calls := ?_, compiles := ?_ }
    · exact (token.awaits?_of_symbol? hword).symm
    · rintro target ⟨instr, rfl, htarget⟩
      exact token.eq_word_of_symbol? hword target htarget
    · exact fun _ => rfl
  · rw [hcompile]
    refine ⟨?_, ?_, .beside⟩
    · rw [← hmove]
      rfl
    · simp [Token.demand, Token.awaits?, Extended.ofId?_id, hop]
  · rw [hcompile]
    exact .of_refused he

theorem does_collect (collected : Option String) (word : String) :
    (collect collected word).Does {
      awaits := if (unquote? word).isSome then none
        else some (.text (some ((collected.map (· ++ " ")).getD "" ++ word)))
      compiles := a.definition ≠ none } a a := by
  simp only [Does, collect, yields_bind, yields_ite, yields_refuse, yields_await, yields_pure,
    yields_get]
  refine ⟨fun _ => .of_refused id, fun _ => ⟨fun hnone => ⟨rfl, ?_, .beside⟩, fun hsome => ?_⟩⟩
  · simp_all
  · rw [Option.isNone_iff_eq_none, ← ne_eq, ← Option.isSome_iff_ne_none] at hsome
    simp only [hsome, if_true]
    refine ⟨fun hopen => (does_emit rfl).mono { compiles := fun _ => ?_ },
      fun _ => ⟨rfl, rfl, .beside⟩⟩
    exact Option.isSome_iff_ne_none.mp hopen

theorem does_dump : dump.Does { move := .pop 2 } a a := by
  simp only [Does, dump, yields_bind, yields_get]
  split
  · rename_i length start rest hliterals
    simp only [yields_bind, yields_popLiteral, hliterals, yields_get, yields_pure]
    refine ⟨fun hnil => absurd hnil (List.cons_ne_nil _ _), ?_⟩
    rintro _ _ ⟨⟩
    refine ⟨fun hnil => absurd hnil (List.cons_ne_nil _ _), ?_⟩
    rintro _ _ ⟨⟩
    exact ⟨by rw [hliterals]; rfl, rfl, .beside⟩
  · exact .of_refused id

theorem does_command (c : Command) :
    (command c).Does ((Token.command c).demand .interpret) a a := by
  have hsave (autorun : Bool) : (saveAndReport autorun).Does { stores := True } a a :=
    (does_saveToStorage autorun).bind fun _ _ => by simp
  have hload : loadAndReport.Does {} a a := does_loadFromStorage.bind fun _ _ => by simp
  cases c with
  | dump => exact does_dump.mono {}
  | save => exact (hsave false).mono { stores := fun _ => ⟨rfl, rfl⟩ }
  | saveAutorun => exact (hsave true).mono { stores := fun _ => ⟨rfl, rfl⟩ }
  | load => exact hload.mono {}
  | reset =>
    have hreset : (command .reset).Does { move := .clear, awaits := some .nothing } a a :=
      does_reset.bind fun _ _ => rfl
    exact hreset.mono {}
  | hex => exact ⟨rfl, rfl, .configured ⟨rfl, trivial⟩⟩
  | decimal => exact ⟨rfl, rfl, .configured ⟨rfl, trivial⟩⟩
  | trace => exact ⟨rfl, rfl, .configured ⟨rfl, trivial⟩⟩
  | _ => exact ⟨rfl, rfl, .beside⟩

theorem does_interpret (token : Token) : (interpret token).Does (token.demand .interpret) a a := by
  cases token with
  | command c => exact does_command c
  | extended id =>
    simp only [Does, interpret, yields_ite, yields_bind, yields_await, yields_pure]
    constructor
    · intro hid
      refine ⟨rfl, ?_, .beside⟩
      simp [Token.demand, Token.awaits?, hid]
    · intro hid
      refine ⟨rfl, ?_, .beside⟩
      simp [Token.demand, Token.awaits?, hid]
  | compileWord word => exact .of_refused id
  | unknown text => exact .of_refused id
  | _ => exact ⟨rfl, rfl, .beside⟩

/-- The literal is dropped once the constant is defined. -/
theorem does_constant (name : String) : (named .constant name).Does { move := .pop 1 } a a := by
  simp only [Does, named, yields_bind, yields_get]
  split
  · exact .of_refused id
  · rename_i value rest hliterals
    rw [yields_bind]
    apply (adds_defineConstant name value).yields.mono
    · intro address b hacquires
      have hkept : b.literals = value :: rest := hacquires.keeps.literals.trans hliterals
      simp only [yields_bind, yields_popLiteral, yields_get, yields_pure, hkept]
      refine ⟨fun hnil => absurd hnil (List.cons_ne_nil _ _), ?_⟩
      rintro _ _ ⟨⟩
      refine ⟨?_, hacquires.keeps.awaiting, .added hacquires⟩
      rw [hliterals]
      rfl
    · rintro _ _ ⟨e, rfl, rfl, hreach⟩
      exact .of_refused hreach

theorem does_see (name : String) : (named .see name).Does {} a a := by
  simp only [Does, named, yields_bind, yields_get, yields_ofExcept, yields_pure]
  refine ⟨fun _ _ => ⟨rfl, rfl, .beside⟩, fun e he => .of_refused ?_⟩
  exact Dictionary.not_outOfReach_of_see he

theorem does_named (use : NameUse) (name : String) :
    (named use name).Does {
      move := if use = .constant then .pop 1 else .stay
      opens := use = .colon
      forgets := use = .forget } a a := by
  cases use with
  | colon =>
    have hcolon : (named .colon name).Does { opens := True } a a :=
      (does_define name).bind fun _ _ => rfl
    exact hcolon.mono { opens := fun _ => rfl }
  | «variable» =>
    have hvariable : (named .variable name).Does {} a a :=
      (does_addsWord (adds_defineVariable name)).bind fun _ _ => rfl
    exact hvariable.mono {}
  | constant => exact (does_constant name).mono {}
  | forget =>
    have hforget : (named .forget name).Does { forgets := True } a a :=
      (does_forget name).bind fun _ _ => rfl
    exact hforget.mono { forgets := fun _ => rfl }
  | see => exact (does_see name).mono {}

theorem run_feed_name {use : NameUse} (h : a.awaiting = .name use) (name : String) :
    (feed name).run a = (named use name).run { a with awaiting := .nothing } := by
  rw [feed, run_takeAwaiting_bind, h]

theorem run_feed_compile (hawaiting : a.awaiting = .nothing) (hmode : a.mode = .compile)
    (text : String) : (feed text).run a = (compile (a.classify text)).run a := by
  have hsame : { a with awaiting := .nothing } = a := by rw [← hawaiting]
  rw [feed, run_takeAwaiting_bind, hawaiting, hsame, run_get_bind]
  simp only [hmode]

theorem run_feed_interpret (hawaiting : a.awaiting = .nothing) (hmode : a.mode = .interpret)
    (text : String) : (feed text).run a = (interpret (a.classify text)).run a := by
  have hsame : { a with awaiting := .nothing } = a := by rw [← hawaiting]
  rw [feed, run_takeAwaiting_bind, hawaiting, hsame, run_get_bind]
  simp only [hmode]

/-- A word of input does what it asks for, once nothing is awaited. -/
theorem does_feed (text : String) :
    (feed text).Does (a.demand text) { a with awaiting := .nothing } a := by
  rw [feed, does_takeAwaiting, Assembler.demand]
  cases hawaiting : a.awaiting with
  | name use =>
    have hmove : (if use = .constant then .pop 1 else .stay) = a.move text := by
      cases use <;> simp [Assembler.move, hawaiting]
    exact (does_named use text).mono { move := hmove }
  | operand =>
    dsimp only
    rw [does_get]
    split
    · exact .of_refused id
    · exact does_emit rfl
  | text collected => exact does_collect collected text
  | nothing =>
    dsimp only
    rw [does_get]
    have htoken : ({ a with awaiting := .nothing } : Assembler).classify text = a.classify text :=
      rfl
    dsimp only
    rw [htoken]
    split
    · rename_i hmode
      rw [hmode]
      exact does_compile _
    · rename_i hmode
      rw [hmode]
      exact does_interpret _

theorem does_finish :
    finish.Does { compiles := a.definition ≠ none } { a with awaiting := .nothing } a := by
  rw [finish, does_takeAwaiting]
  split
  · exact .of_refused id
  · exact .of_refused id
  · exact .of_refused id
  · simp only [Does, yields_bind, yields_get, yields_ite, yields_map, yields_pure]
    refine ⟨fun hopen => ?_, fun _ => ⟨rfl, rfl, .beside⟩⟩
    exact does_close.mono { compiles := fun _ => Option.isSome_iff_ne_none.mp hopen }

end Action

namespace Operation
variable {a : Assembler}

/-- What an operation that is accepted does to the literals, unless it is a run. -/
def move (a : Assembler) : Operation → Move
  | feed word => a.move word
  | pushLiteral value => .push value
  | popLiteral => .pop 1
  | reset => .clear
  | _ => .stay

/-- What an operation asks for, unless it is a run. -/
def demand (a : Assembler) : Operation → Demand
  | feed word => a.demand word
  | compile token => token.demand .compile
  | define _ => { opens := True }
  | forget _ => { forgets := True }
  | close => { compiles := True }
  | finish => { compiles := a.definition ≠ none }
  | pushLiteral value => { move := .push value }
  | popLiteral => { move := .pop 1 }
  | abort => { awaits := some .nothing }
  | reset => { move := .clear, awaits := some .nothing }
  | saveToStorage _ => { stores := True }
  | _ => {}

theorem move_demand (a : Assembler) (operation : Operation) :
    (operation.demand a).move = operation.move a := by
  cases operation with
  | feed word => exact a.move_demand word
  | compile token => exact token.move_compile
  | _ => rfl

/-- The state after a refusal: the next word is not awaited any more by what took this one. -/
def dropAwaiting (a : Assembler) : Operation → Assembler
  | feed _ | finish => { a with awaiting := .nothing }
  | _ => a

/-- What does not depend on what is awaited is not lost by a refusal. -/
theorem of_dropAwaiting {P : Assembler → Prop} (h : P a)
    (hawaiting : P { a with awaiting := .nothing }) (operation : Operation) :
    P (operation.dropAwaiting a) := by
  unfold dropAwaiting
  split
  · exact hawaiting
  · exact hawaiting
  · exact h

theorem literals_dropAwaiting (a : Assembler) (operation : Operation) :
    (operation.dropAwaiting a).literals = a.literals :=
  of_dropAwaiting (P := fun b => b.literals = a.literals) rfl rfl operation

/-- By cases on the operation, with none left out but runs, which are made of words. -/
theorem does_perform {operation : Operation} (hrun : ∀ input, operation ≠ run input) :
    operation.perform.Does (operation.demand a) (operation.dropAwaiting a) a := by
  cases operation with
  | feed text => exact (Action.does_feed text).map _
  | run input => exact absurd rfl (hrun input)
  | compile token => exact (Action.does_compile token).map _
  | define name => exact (Action.does_define name).map _
  | defineVariable name =>
    exact (Action.does_addsWord (Action.adds_defineVariable name)).map _
  | defineConstant name value =>
    exact (Action.does_addsWord (Action.adds_defineConstant name value)).map _
  | forget name => exact (Action.does_forget name).map _
  | close => exact Action.does_close.map _
  | finish => exact Action.does_finish.map _
  | abort => exact Action.does_abort.map _
  | reset => exact Action.does_reset.map _
  | popLiteral =>
    apply Action.Does.map
    rw [Action.Does, Action.yields_popLiteral]
    refine ⟨fun _ => .of_refused id, fun value rest hliterals => ⟨?_, rfl, .beside⟩⟩
    show rest = a.literals.drop 1
    rw [hliterals, List.drop_one, List.tail_cons]
  | require name =>
    apply Action.Does.map
    rw [Action.require, Action.does_get]
    split
    · exact ⟨rfl, rfl, .beside⟩
    · exact .of_refused id
  | save autorun => exact (Action.does_save autorun).map _
  | load blob => exact (Action.does_load blob).map _
  | saveToStorage autorun => exact (Action.does_saveToStorage autorun).map _
  | loadFromStorage => exact Action.does_loadFromStorage.map _
  | see name =>
    simp only [Action.Does, perform, Action.yields_bind, Action.yields_get, Action.yields_map,
      Action.yields_ofExcept]
    refine ⟨fun _ _ => ⟨rfl, rfl, .beside⟩, fun e he => .of_refused ?_⟩
    exact Dictionary.not_outOfReach_of_see he
  | _ => exact ⟨rfl, rfl, .beside⟩

theorem run_forget (name : String) :
    (forget name).perform.run a =
      if a.isCompiling then .error (.refused .definitionOpen) a
      else match a.dictionary.forget a.options.foldCase name with
        | .ok (address, dictionary) => .ok (.number address) { a with dictionary }
        | .error halt => .error halt a := by
  change (Reply.number <$> Action.forget name).run a = _
  rw [Action.run_map, Action.forget, Action.run_requireClosed_bind]
  cases a.isCompiling with
  | true => rfl
  | false =>
    rw [if_neg Bool.false_ne_true, if_neg Bool.false_ne_true, Action.run_get_bind]
    cases a.dictionary.forget a.options.foldCase name <;> rfl

theorem run_see (name : String) :
    (see name).perform.run a =
      match a.dictionary.see a.options.foldCase name with
      | .ok lines => .ok (.lines lines) a
      | .error e => .error (.refused e) a := by
  change (Reply.lines <$> Action.ofExcept (a.dictionary.see a.options.foldCase name)).run a = _
  cases a.dictionary.see a.options.foldCase name <;> rfl

theorem run_require (name : String) :
    (require name).perform.run a =
      match a.lookup? name with
      | some code => .ok (.number code) a
      | none => .error (.refused (.unknownWord name)) a := by
  change (Reply.number <$> Action.require name).run a = _
  rw [Action.run_map, Action.require, Action.run_get_bind]
  cases a.lookup? name <;> rfl

end Operation
end ForthAssembler
