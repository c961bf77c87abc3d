import ForthAssembler.Proofs.Session.Follows

/-! Every single operation keeps an assembler in step with a ledger. -/
namespace ForthAssembler
open Instr Text Word

/-- A word that is read as a call names one that is defined. -/
theorem Token.classify_eq_word {d : Dictionary} {mode : Mode} {options : Options} {text : String}
    {code : Nat} (h : classify d mode options text = .word code) :
    ∃ e, d.find? options.foldCase text = some e ∧ e.code = code := by
  unfold classify at h
  cases hfind : d.find? options.foldCase text with
  | some e =>
    refine ⟨e, rfl, ?_⟩
    simpa [hfind] using h
  | none =>
    have hbuiltin : ∀ token, builtin? mode options.foldCase text = some token →
        token ≠ .word code := by
      rintro _ htoken rfl
      cases mode <;> simp [builtin?, modeWord?, Option.or_eq_some_iff] at htoken
    cases hb : builtin? mode options.foldCase text with
    | some token =>
      simp only [hfind, hb] at h
      exact absurd h (hbuiltin token hb)
    | none =>
      cases hn : parseNumber? options.radix text <;> simp [hfind, hb, hn] at h

namespace Follows
variable {l : Ledger} {a : Assembler}

/-- Calls go to words of the ledger, never to the one that is being defined. -/
theorem mem_codes_of_classify (h : Follows l a) {text : String} {target : Nat}
    (hword : a.classify text = .word target) : target ∈ codes l.words := by
  obtain ⟨e, hfind, rfl⟩ := Token.classify_eq_word hword
  have hentries : a.dictionary.entries = Word.entries l.words ∨ ∃ top, top.hidden = true ∧
      a.dictionary.entries = top :: Word.entries l.words := by
    cases hdefinition : a.definition with
    | none =>
      obtain ⟨halloc, hhead⟩ := h.closed hdefinition
      exact .inl (Dictionary.entries_eq halloc hhead h.sound.legal)
    | some definition =>
      obtain ⟨draft, hdefines, -⟩ := h.opened definition hdefinition
      exact .inr ⟨_, hidden_entry hdefines.legal, Dictionary.entries_eq_hidden
        hdefines.code.allocated hdefines.head hdefines.legal h.sound.legal⟩
  obtain ⟨word, older, newer, hwords, -, rfl⟩ :=
    Dictionary.of_find?_eq_some h.sound.legal hentries hfind
  have hname : Entry.Legal word.name := h.sound.legal word (by simp [hwords])
  exact mem_codes_iff.mpr ⟨newer, word, older, hwords, code_entry hname⟩

end Follows

namespace Action
open Follows
variable {l : Ledger} {a : Assembler}

theorem simple_literalInstr (codes : List Nat) (short : Bool) (value : Int16) :
    (literalInstr short value).Simple codes := by
  unfold literalInstr
  split <;> trivial

theorem ensures_compile_follows (h : Follows l a) {definition : Definition}
    (hopen : a.definition = some definition) (hawaiting : a.awaiting = .nothing) (token : Token)
    (htoken : ∀ code, token = .word code → code ∈ codes l.words) (foldCase : Bool) :
    (compile token).Ensures
      (fun _ a' => Follows (l.after foldCase a'.dictionary.memory.allocated
        (.ofToken a.definition token)) a')
      (fun _ a' => Follows l a') a := by
  have hisOpen : a.definition.isSome := by simp [hopen]
  have hawait (awaiting : Awaiting) : Follows l { a with awaiting } :=
    h.congr rfl rfl rfl rfl rfl fun _ => hisOpen
  have haction (word : Symbol Instr) (hword : ∀ i, word = .plain i → i.Simple (codes l.words)) :=
    ensures_action_follows h hisOpen word hword
  have hcontrol (word : Control) := haction (.control word) (by simp)
  cases token with
  | number value =>
    simp only [compile, ensures_bind, ensures_get]
    apply haction (.plain (literalInstr a.options.shortLiterals value))
    intro _ heq
    cases heq
    exact simple_literalInstr _ _ _
  | word code =>
    apply haction (.plain (.call code))
    intro _ heq
    cases heq
    exact htoken code rfl
  | primitive id =>
    apply haction (.plain (.primitive id))
    intro _ heq
    cases heq
    trivial
  | extended id =>
    simp only [compile]
    split
    · rename_i op _
      cases op with
      | text => exact hawait _
      | literal => exact hawait _
      | leave => exact hcontrol .breakWord
      | forLoop => exact hcontrol .forWord
      | next => exact hcontrol .nextWord
      | index =>
        apply haction (.plain .index)
        intro _ heq
        cases heq
        trivial
    · exact h
  | compileWord word =>
    cases word with
    | semicolon =>
      rw [hopen]
      exact ensures_close_follows h hopen (by simp [hawaiting])
    | beginWord => exact haction .begin (by simp)
    | ifWord => exact hcontrol .ifWord
    | elseWord => exact hcontrol .elseWord
    | thenWord => exact hcontrol .thenWord
    | untilWord => exact hcontrol .untilWord
    | againWord => exact hcontrol .againWord
    | whileWord => exact hcontrol .whileWord
    | repeatWord => exact hcontrol .repeatWord
  | command command => exact h
  | unknown text => exact h

theorem ensures_collect_follows (h : Follows l a) (collected : Option String) (word : String) :
    (collect collected word).Ensures (fun _ a' => Follows l a') (fun _ a' => Follows l a') a := by
  simp only [collect, ensures_bind, ensures_ite, ensures_refuse, ensures_await, ensures_pure,
    ensures_get]
  refine ⟨fun _ => h, fun _ => ⟨fun _ => ?_, fun _ => ⟨fun hopen => ?_, fun _ => h⟩⟩⟩
  · exact h.congr rfl rfl rfl rfl rfl (by simp)
  · apply ensures_action_follows h hopen (.plain (.text _))
    intro _ heq
    cases heq
    trivial

theorem ensures_command_follows (h : Follows l a) (c : Command) (foldCase : Bool) :
    (command c).Ensures
      (fun _ a' => Follows (l.after foldCase a'.dictionary.memory.allocated (.ofCommand c)) a')
      (fun _ a' => Follows l a') a := by
  have hawait (use : NameUse) : Follows l { a with awaiting := .name use } :=
    h.congr rfl rfl rfl rfl rfl (by simp)
  have hoptions (options : Options) : Follows l { a with options } :=
    h.congr rfl rfl rfl rfl rfl h.operand
  have hsave (autorun : Bool) : (saveAndReport autorun).Ensures
      (fun _ a' => Follows { l with stored := some l.words } a') (fun _ a' => Follows l a') a := by
    rw [saveAndReport, ensures_bind]
    exact ensures_saveToStorage_follows h autorun
  cases c with
  | colon => exact hawait .colon
  | «variable» => exact hawait .variable
  | constant => exact hawait .constant
  | forget => exact hawait .forget
  | see => exact hawait .see
  | words => exact h
  | dump =>
    simp only [command, dump, ensures_bind, ensures_get]
    split
    · rename_i _ _ _ hliterals
      have hpop (literals : List Int16) : Follows l { a with literals } :=
        h.congr rfl rfl rfl rfl rfl h.operand
      simp only [ensures_bind, ensures_popLiteral, ensures_get, ensures_pure, hliterals]
      simp [Event.ofCommand, Ledger.after, hpop]
    · exact h
  | save => exact hsave false
  | saveAutorun => exact hsave true
  | load =>
    simp only [command, loadAndReport, ensures_bind]
    exact ensures_loadFromStorage_follows h
  | hex => exact hoptions _
  | decimal => exact hoptions _
  | reset =>
    simp only [command, ensures_bind]
    exact (ensures_reset_follows h).mono (fun _ _ h => h) fun _ _ h => h.elim
  | query => exact h
  | trace => exact hoptions _

theorem ensures_interpret_follows (h : Follows l a) (token : Token) (foldCase : Bool) :
    (interpret token).Ensures
      (fun _ a' => Follows (l.after foldCase a'.dictionary.memory.allocated
        (.ofToken a.definition token)) a')
      (fun _ a' => Follows l a') a := by
  cases token with
  | number value => exact h.congr rfl rfl rfl rfl rfl h.operand
  | word code => exact h
  | primitive id => exact h
  | extended id =>
    simp only [interpret, ensures_ite, ensures_bind, ensures_await, ensures_pure]
    exact ⟨fun _ => h.congr rfl rfl rfl rfl rfl (by simp), fun _ => h⟩
  | compileWord word => exact h
  | command c => exact ensures_command_follows h c foldCase
  | unknown text => exact h

theorem ensures_named_follows (h : Follows l a) (use : NameUse) (name : String) :
    (named use name).Ensures
      (fun _ a' => Follows (l.after a.options.foldCase a'.dictionary.memory.allocated
        (.ofName name use)) a')
      (fun _ a' => Follows l a') a := by
  cases use with
  | colon =>
    simp only [named, ensures_bind]
    exact ensures_define_follows h name
  | «variable» =>
    simp only [named, ensures_bind]
    exact (follows_addsWord h (adds_defineVariable name)).imp fun _ _ h' => h'.1
  | constant =>
    simp only [named, ensures_bind, ensures_get]
    cases hliterals : a.literals with
    | nil => exact h
    | cons value literals =>
      rw [ensures_bind]
      apply (follows_addsWord h (adds_defineConstant name value)).imp
      intro _ a' hdefine
      obtain ⟨ha', hsame⟩ := hdefine
      simp only [ensures_bind, ensures_popLiteral, ensures_get, ensures_pure]
      constructor
      · simp [hsame, hliterals]
      · intro _ rest _
        exact ha'.congr rfl rfl rfl rfl rfl ha'.operand
  | forget =>
    simp only [named, ensures_bind]
    exact ensures_forget_follows h name
  | see =>
    simp only [named, ensures_bind, ensures_get, ensures_ofExcept, ensures_pure]
    exact ⟨fun _ _ => h, fun _ _ => h⟩

/-- A word of input does to the words what its event says, or nothing when it is refused. -/
theorem ensures_feed_follows (h : Follows l a) (text : String) :
    (feed text).Ensures
      (fun _ a' => Follows (l.after a.options.foldCase a'.dictionary.memory.allocated
        (a.event text)) a')
      (fun _ a' => Follows l a') a := by
  have hb : Follows l { a with awaiting := .nothing } := h.congr rfl rfl rfl rfl rfl (by simp)
  rw [feed, ensures_bind, ensures_takeAwaiting]
  cases hawaiting : a.awaiting with
  | name use =>
    simp only [Assembler.event, hawaiting]
    exact ensures_named_follows hb use text
  | operand =>
    simp only [Assembler.event, hawaiting, ensures_bind, ensures_get]
    split
    · exact hb
    · apply ensures_action_follows hb (h.operand hawaiting) (.plain (.literal _))
      intro _ heq
      cases heq
      trivial
  | text collected =>
    simp only [Assembler.event, hawaiting]
    exact ensures_collect_follows hb collected text
  | nothing =>
    simp only [Assembler.event, hawaiting, ensures_bind, ensures_get]
    split
    · rename_i hmode
      cases hdefinition : a.definition with
      | none => cases (h.mode hdefinition).symm.trans hmode
      | some definition =>
        rw [← hdefinition]
        exact ensures_compile_follows hb hdefinition rfl _
          (fun code hcode => hb.mem_codes_of_classify hcode) _
    · exact ensures_interpret_follows hb _ _

theorem ensures_finish_follows (h : Follows l a) :
    finish.Ensures
      (fun _ a' => Follows (l.after a.options.foldCase a'.dictionary.memory.allocated
        (.ofToken a.definition (.compileWord .semicolon))) a')
      (fun _ a' => Follows l a') a := by
  have hb : Follows l { a with awaiting := .nothing } := h.congr rfl rfl rfl rfl rfl (by simp)
  rw [finish, ensures_bind, ensures_takeAwaiting]
  split
  · exact hb
  · exact hb
  · exact hb
  · simp only [ensures_bind, ensures_get, ensures_ite, ensures_map, ensures_pure]
    refine ⟨fun hopen => ?_, fun hclosed => ?_⟩
    · obtain ⟨definition, hdefinition⟩ := Option.isSome_iff_exists.mp hopen
      have hevent : Event.ofToken a.definition (.compileWord .semicolon) =
          .added .colon definition.name := by
        rw [show a.definition = some definition from hdefinition]
        rfl
      rw [hevent]
      exact ensures_close_follows hb hdefinition (by simp)
    · have hnone : a.definition = none := by simpa [Assembler.isCompiling] using hclosed
      have hevent : Event.ofToken a.definition (.compileWord .semicolon) = .kept := by
        rw [hnone]
        rfl
      rw [hevent]
      exact hb

end Action

/-- A single ordinary operation does to the words what its event says, or nothing when it is
refused. It relies on nothing that could fail. -/
theorem Operation.ensures_perform_follows {l : Ledger} {a : Assembler} (h : Follows l a)
    {operation : Operation} (hop : operation.Ordinary) (hsingle : operation.Single) :
    operation.perform.Ensures
      (fun _ a' => Follows (l.after a.options.foldCase a'.dictionary.memory.allocated
        (operation.event a)) a')
      (fun _ a' => Follows l a') a := by
  cases operation with
  | feed text =>
    rw [perform, Action.ensures_map]
    exact Action.ensures_feed_follows h text
  | run input => exact hsingle.elim
  | classify text => exact h
  | compile token => exact hop.elim
  | define name =>
    rw [perform, Action.ensures_map]
    exact Action.ensures_define_follows h name
  | defineVariable name =>
    rw [perform, Action.ensures_map]
    exact (Action.follows_addsWord h (Action.adds_defineVariable name)).imp fun _ _ h' => h'.1
  | defineConstant name value =>
    rw [perform, Action.ensures_map]
    exact (Action.follows_addsWord h (Action.adds_defineConstant name value)).imp
      fun _ _ h' => h'.1
  | forget name =>
    rw [perform, Action.ensures_map]
    exact Action.ensures_forget_follows h name
  | close => exact hop.elim
  | finish =>
    rw [perform, Action.ensures_map]
    exact Action.ensures_finish_follows h
  | abort =>
    rw [perform, Action.ensures_map]
    exact (Action.ensures_abort_follows h).mono (fun _ _ h => h.1) fun _ _ h => h.elim
  | reset =>
    rw [perform, Action.ensures_map]
    exact (Action.ensures_reset_follows h).mono (fun _ _ h => h) fun _ _ h => h.elim
  | pushLiteral value => exact h.congr rfl rfl rfl rfl rfl h.operand
  | popLiteral =>
    rw [perform, Action.ensures_map, Action.ensures_popLiteral]
    exact ⟨fun _ => h, fun _ _ _ => h.congr rfl rfl rfl rfl rfl h.operand⟩
  | lookup name => exact h
  | require name =>
    rw [perform, Action.ensures_map]
    simp only [Action.require, Action.ensures_bind, Action.ensures_get]
    split <;> exact h
  | save autorun =>
    rw [perform, Action.ensures_map]
    apply (Action.ensures_save_follows h autorun).imp
    intro _ a' hsave
    rwa [hsave.1]
  | load blob => exact hop.elim
  | saveToStorage autorun =>
    rw [perform, Action.ensures_map]
    exact Action.ensures_saveToStorage_follows h autorun
  | loadFromStorage =>
    rw [perform, Action.ensures_map]
    exact Action.ensures_loadFromStorage_follows h
  | status => exact h
  | words => exact h
  | vocabulary => exact h
  | trace start stop => exact h
  | dump start length => exact h
  | see name =>
    simp only [perform, Action.ensures_bind, Action.ensures_get, Action.ensures_map,
      Action.ensures_ofExcept]
    exact ⟨fun _ _ => h, fun _ _ => h⟩
  | entries => exact h

end ForthAssembler
