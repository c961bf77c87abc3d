import ForthAssembler.Proofs.Assembler.Couples
import ForthAssembler.Session.Operation

/-! Actions are blind to what is behind the cursor, and to the store if they do not use it. -/
namespace ForthAssembler

namespace Action
open Assembler
variable {shared : Shared} {a b : Assembler}

theorem blind_commit (code : List UInt8) (patches : List Patch) :
    Blind shared (commit code patches) := by
  intro a b h
  rw [commit, couples_get]
  refine (couples_ofHalting (h.dictionary.memory.commit code patches) h).bind ?_
  rintro ⟨start, m⟩ ⟨_, n⟩ a' b' ⟨rfl, hmn⟩ h'
  have hd : Dictionary.Alike { a.dictionary with memory := m } { b.dictionary with memory := n } :=
    ⟨hmn, h.dictionary.head⟩
  refine (couples_setDictionary hd h').bind ?_
  rintro _ _ a'' b'' - h''
  exact couples_pure (by rw [hmn.here]) h''

theorem blind_emit (code : List Instr) (patches : List Patch) : Blind shared (emit code patches) :=
  .bind (.ofExcept _) fun _ => blind_commit _ _

theorem blind_define (name : String) : Blind shared (define name) := by
  refine .bind blind_requireClosed fun _ a b h => ?_
  rw [couples_get]
  refine (couples_ofExcept (h.dictionary.push name true) h).bind ?_
  rintro ⟨address, d⟩ ⟨_, e⟩ a' b' ⟨rfl, hde⟩ h'
  refine (couples_setDictionary hde h').bind ?_
  rintro _ _ a'' b'' - h''
  rw [h.dictionary.head]
  refine Blind.bind (.modify ?_) (fun _ => .pure address) a'' b'' h''
  exact fun _ _ h => { h with definition := rfl, mode := rfl, frames := rfl }

theorem blind_close : Blind shared close := by
  intro a b h
  rw [close, couples_get, h.definition, h.frames]
  split
  · refine (blind_emit [.ret] [] a b h).bind ?_
    rintro _ _ a' b' - h'
    rw [couples_get, h.here, h'.here]
    refine (couples_ofChecked h'.dictionary.reveal h').bind ?_
    rintro d e a'' b'' hde h''
    refine (couples_setDictionary hde h'').bind ?_
    rintro _ _ c c' - hc
    refine Blind.bind (.modify ?_) (fun _ => .pure _) c c' hc
    exact fun _ _ h => { h with definition := rfl, mode := rfl }
  · exact blind_refuse _ a b h

theorem blind_abort : Blind shared abort := by
  refine .bind (blind_await _) fun _ => .bind (blind_setFrames _) fun _ a b h => ?_
  rw [couples_get, h.definition]
  split
  · rename_i definition _
    refine (couples_modify (f := fun a => { a with definition := none })
      (g := fun a => { a with definition := none }) { h with definition := rfl }).bind ?_
    rintro _ _ a' b' - h'
    rw [couples_get]
    refine (couples_ofChecked (h'.dictionary.truncate definition.address definition.previous)
      h').bind ?_
    rintro d e a'' b'' hde h''
    refine (couples_setDictionary hde h'').bind ?_
    exact fun _ _ c c' _ hc => blind_setMode _ c c' hc
  · exact blind_setMode _ a b h

theorem blind_finish : Blind shared finish := by
  refine .bind blind_takeAwaiting fun awaiting => ?_
  split
  · exact blind_refuse _
  · exact blind_refuse _
  · exact blind_refuse _
  · exact .get (fun a b h => by rw [h.isCompiling]) fun _ =>
      blind_ite (blind_close.map _) (.pure _)

theorem blind_defineWith (name : String) (body : List UInt8) :
    Blind shared (defineWith name body) := by
  intro a b h
  rw [defineWith, couples_get]
  dsimp only
  rw [h.dictionary.memory.unused]
  split
  · exact (blind_refuse _ : Blind shared (refuse _ : Action Nat)) a b h
  · refine (couples_ofExcept (h.dictionary.push name false) h).bind ?_
    rintro ⟨address, d⟩ ⟨_, e⟩ a' b' ⟨rfl, hde⟩ h'
    refine (couples_setDictionary hde h').bind ?_
    rintro _ _ a'' b'' - h''
    exact (blind_commit body []).bind (fun _ => .pure address) a'' b'' h''

theorem blind_defineVariable (name : String) : Blind shared (defineVariable name) := by
  refine .bind blind_requireClosed fun _ => .get (fun a b h => ?_) fun a => ?_
  · rw [h.here, h.shortLiterals]
  · exact .bind (.ofExcept _) fun _ => blind_defineWith _ _

theorem blind_defineConstant (name : String) (value : Int16) :
    Blind shared (defineConstant name value) := by
  refine .bind blind_requireClosed fun _ => .get (fun a b h => ?_) fun a => ?_
  · rw [h.shortLiterals]
  · exact .bind (.ofExcept _) fun _ => blind_defineWith _ _

theorem blind_forget (name : String) : Blind shared (forget name) := by
  refine .bind blind_requireClosed fun _ a b h => ?_
  rw [couples_get, h.foldCase]
  refine (couples_ofHalting (h.dictionary.forget _ name) h).bind ?_
  rintro ⟨address, d⟩ ⟨_, e⟩ a' b' ⟨rfl, hde⟩ h'
  exact (couples_setDictionary hde h').bind fun _ _ _ _ _ => couples_pure rfl

theorem blind_control (word : Control) : Blind shared (control word) := by
  refine .get (fun a b h => by rw [h.here, h.frames]) fun a => .bind (.ofExcept _) fun plan => ?_
  exact .bind (blind_emit _ _) fun _ => .bind (blind_setFrames _) fun _ => .pure _

theorem blind_openLoop : Blind shared openLoop := by
  refine .get (fun a b h => by rw [h.here, h.frames]) fun a => ?_
  exact blind_ite (.bind (blind_refuse _) fun _ => .bind (blind_setFrames _) fun _ => .pure _)
    (.bind (blind_setFrames _) fun _ => .pure _)

theorem blind_compileWord (word : CompileWord) : Blind shared (compileWord word) := by
  cases word with
  | semicolon => exact blind_close
  | beginWord => exact blind_openLoop
  | _ => exact blind_control _

theorem blind_compileExtended (op : Extended) : Blind shared (compileExtended op) := by
  cases op with
  | literal => exact .bind (blind_await _) fun _ => .pure _
  | text => exact .bind (blind_await _) fun _ => .pure _
  | index => exact blind_emit _ _
  | _ => exact blind_control _

theorem blind_compile (token : Token) : Blind shared (compile token) := by
  cases token with
  | number value => exact .get (fun a b h => by rw [h.shortLiterals]) fun _ => blind_emit _ _
  | word code => exact blind_emit _ _
  | primitive id => exact blind_emit _ _
  | extended id =>
    simp only [compile]
    split
    · exact blind_compileExtended _
    · exact blind_refuse _
  | compileWord word => exact blind_compileWord word
  | command c => exact blind_refuse _
  | unknown text => exact blind_refuse _

theorem blind_save (autorun : Bool) : Blind shared (save autorun) :=
  .bind blind_requireClosed fun _ => .get
    (fun a b h => by simp only [h.dictionary.head, h.dictionary.memory.allocated]) fun _ => .pure _

theorem blind_load (blob : List UInt8) : Blind shared (load blob) := by
  refine .bind blind_requireClosed fun _ a b h => ?_
  rw [couples_get]
  dsimp only
  rw [h.dictionary.memory.size]
  refine (Blind.ofExcept _ a b h).bind ?_
  rintro image _ a' b' rfl h'
  have hrestore : Agree Dictionary.Alike
      ((a.dictionary.restore image.bytes image.latest).mapError Error.badImage)
      ((b.dictionary.restore image.bytes image.latest).mapError Error.badImage) :=
    (h.dictionary.restore image.bytes image.latest).mapError _
  refine (couples_ofExcept hrestore h').bind ?_
  rintro d e a'' b'' hde h''
  refine (couples_setDictionary hde h'').bind ?_
  rintro _ _ c c' - hc
  refine (blind_setFrames [] c c' hc).bind ?_
  rintro _ _ c c' - hc
  refine (blind_setMode .interpret c c' hc).bind ?_
  rintro _ _ c c' - hc
  exact couples_pure (by rw [hde.latest?]) hc

theorem blind_reset : Blind shared reset :=
  .bind blind_abort fun _ => .modify fun _ _ h =>
    { h with dictionary := h.dictionary.reset, literals := fun _ => rfl }

/-- What is stored matters to those who use the store. -/
theorem blind_saveToStorage (hstorage : shared.storage) (autorun : Bool) :
    Blind shared (saveToStorage autorun) := by
  have hwrite (blob : List UInt8) (storage : Storage) : Blind shared (do
      let written ← Action.ofExcept (storage.write blob)
      modify fun a => { a with storage := written }
      return blob.length) :=
    .bind (.ofExcept _) fun _ => .bind (.modify fun _ _ h => { h with storage := fun _ => rfl })
      fun _ => .pure _
  refine .bind (blind_save autorun) fun blob => .get (fun a b h => by rw [h.storage hstorage])
    fun a => ?_
  dsimp only
  split
  · exact blind_ite (.bind (blind_refuse _) fun _ => hwrite _ _) (hwrite _ _)
  · exact hwrite _ _

theorem blind_loadFromStorage (hstorage : shared.storage) : Blind shared loadFromStorage := by
  refine .get (fun a b h => by rw [h.storage hstorage]) fun a => ?_
  refine .bind (.ofExcept _) fun content => ?_
  cases content with
  | none => exact blind_refuse _
  | some blob => exact blind_load blob

theorem blind_require (name : String) : Blind shared (require name) := by
  refine .get (fun a b h => by rw [h.lookup?]) fun a => ?_
  split
  · exact .pure _
  · exact blind_refuse _

theorem blind_dump (hliterals : shared.literals) : Blind shared dump := by
  refine .get (fun a b h => by rw [h.literals hliterals]) fun a => ?_
  split
  · have hpop : Blind shared popLiteral := blind_popLiteral hliterals
    refine .bind hpop fun length => .bind hpop fun start => ?_
    exact .get (fun a b h => by rw [Memory.dump_congr h.dictionary.memory.allocated])
      fun _ => .pure _
  · exact blind_refuse _

end Action

/-- The command reads or writes the store. -/
def Command.UsesStorage : Command → Prop
  | .save | .saveAutorun | .load => True
  | _ => False

/-- The word, if it is fed, reads or writes the store. -/
def Assembler.UsesStorage (a : Assembler) (text : String) : Prop :=
  a.awaiting = .nothing ∧ a.mode = .interpret ∧ ∃ c, a.classify text = .command c ∧ c.UsesStorage

/-- A word that is fed may depend on the literals. -/
def Assembler.UsesLiterals (a : Assembler) : Prop :=
  a.awaiting = .name .constant ∨ a.awaiting = .nothing ∧ a.mode = .interpret

namespace Action
open Assembler
variable {shared : Shared} {a b : Assembler}

theorem blind_command (haside : shared.literals ∧ shared.tracing) (c : Command)
    (huse : c.UsesStorage → shared.storage) : Blind shared (command c) := by
  have hawait (use : NameUse) : Blind shared (awaitName use) :=
    .bind (blind_await _) fun _ => .pure _
  have hradix (hex : Bool) : Blind shared (setRadix hex) :=
    .bind (.modify fun _ _ h => { h with hex := rfl }) fun _ => .pure _
  have hsave (hstorage : shared.storage) (autorun : Bool) : Blind shared (saveAndReport autorun) :=
    .bind (blind_saveToStorage hstorage autorun) fun _ => .pure _
  cases c with
  | colon => exact hawait .colon
  | «variable» => exact hawait .variable
  | constant => exact hawait .constant
  | forget => exact hawait .forget
  | see => exact hawait .see
  | words =>
    refine .get (fun a b h => ?_) fun _ => .pure _
    rw [h.dictionary.vocabulary, h.tracing haside.2]
  | dump => exact blind_dump haside.1
  | save => exact hsave (huse trivial) false
  | saveAutorun => exact hsave (huse trivial) true
  | load =>
    exact .bind (blind_loadFromStorage (huse trivial)) fun _ =>
      .get (fun a b h => by rw [h.here]) fun _ => .pure _
  | hex => exact hradix true
  | decimal => exact hradix false
  | reset => exact .bind blind_reset fun _ => .pure _
  | query => exact .get (fun a b h => by rw [h.dictionary.status]) fun _ => .pure _
  | trace =>
    exact .bind (.modify fun _ _ h => { h with tracing := fun ht => by rw [h.tracing ht] })
      fun _ => .get (fun a b h => by rw [h.tracing haside.2]) fun _ => .pure _

theorem blind_named (use : NameUse) (name : String) (hliterals : use = .constant → shared.literals) :
    Blind shared (named use name) := by
  cases use with
  | colon => exact .bind (blind_define name) fun _ => .pure _
  | «variable» =>
    exact .bind (blind_defineVariable name) fun _ =>
      .get (fun a b h => by rw [h.here]) fun _ => .pure _
  | constant =>
    refine .get (fun a b h => by rw [h.literals (hliterals rfl)]) fun a => ?_
    split
    · exact blind_refuse _
    · exact .bind (blind_defineConstant name _) fun _ => .bind (blind_popLiteral (hliterals rfl))
        fun _ => .get (fun a b h => by rw [h.here]) fun _ => .pure _
  | forget => exact .bind (blind_forget name) fun _ => .pure _
  | see =>
    exact .get (fun a b h => by rw [h.dictionary.see, h.foldCase]) fun _ =>
      .bind (.ofExcept _) fun _ => .pure _

theorem blind_collect (collected : Option String) (word : String) :
    Blind shared (collect collected word) := by
  have hrest (text : String) : Blind shared (if (unquote? word).isNone then do
        await (.text (some text))
        return .done
      else do
        if (← get).isCompiling then emit [.text (Text.utf8 text)] [] else return .report text) :=
    blind_ite (.bind (blind_await _) fun _ => .pure _)
      (.get (fun a b h => by rw [h.isCompiling]) fun _ => blind_ite (blind_emit _ _) (.pure _))
  exact blind_ite (.bind (blind_refuse _) fun _ => hrest _) (hrest _)

theorem blind_interpret (haside : shared.literals ∧ shared.tracing) (token : Token)
    (huse : ∀ c, token = .command c → c.UsesStorage → shared.storage) :
    Blind shared (interpret token) := by
  cases token with
  | number value => exact .bind (blind_pushLiteral value) fun _ => .pure _
  | extended id => exact blind_ite (.bind (blind_await _) fun _ => .pure _) (.pure _)
  | command c => exact blind_command haside c (huse c rfl)
  | compileWord word => exact blind_refuse _
  | unknown text => exact blind_refuse _
  | word code => exact .pure _
  | primitive id => exact .pure _

/-- A word does the same to assemblers that are similar, if they share what is used. -/
theorem couples_feed (h : a.Similar shared b) {text : String}
    (huse : a.UsesStorage text → shared.storage)
    (haside : a.UsesLiterals → shared.literals ∧ shared.tracing) :
    Couples shared Eq (feed text) (feed text) a b := by
  have hb : Similar shared { a with awaiting := .nothing } { b with awaiting := .nothing } :=
    { h with awaiting := rfl }
  rw [feed, couples_takeAwaiting, ← h.awaiting]
  split
  · rename_i use hawaiting
    refine blind_named _ _ ?_ _ _ hb
    rintro rfl
    exact (haside (.inl hawaiting)).1
  · refine Blind.get (fun a b h => by rw [h.radix]) (fun _ => ?_) _ _ hb
    split
    · exact blind_refuse _
    · exact blind_emit _ _
  · exact blind_collect _ _ _ _ hb
  · rename_i hawaiting
    have hliterals (hmode : ({ a with awaiting := .nothing } : Assembler).mode = .interpret) :
        shared.literals ∧ shared.tracing := haside (.inr ⟨hawaiting, hmode⟩)
    have hstorage (hmode : ({ a with awaiting := .nothing } : Assembler).mode = .interpret)
        (c : Command) (hc : ({ a with awaiting := .nothing } : Assembler).classify text = .command c)
        (hcommand : c.UsesStorage) : shared.storage := huse ⟨hawaiting, hmode, c, hc, hcommand⟩
    generalize ({ a with awaiting := .nothing } : Assembler) = a,
      ({ b with awaiting := .nothing } : Assembler) = b at *
    rw [couples_get]
    dsimp only
    rw [← hb.classify, ← hb.mode]
    split
    · exact blind_compile _ _ _ hb
    · rename_i hmode
      exact blind_interpret (hliterals hmode) _ (hstorage hmode) _ _ hb

end Action
end ForthAssembler
