import ForthAssembler.Proofs.Assembler.Opened

/-! What actions do, said once: what they keep, and what they do not touch, follows from this. -/
namespace ForthAssembler
open Instr

/-- What is done to a stack of literals. -/
inductive Move
  | stay
  | push (value : Int16)
  | pop (count : Nat)
  | clear
  deriving DecidableEq, Repr

/-- The literals after a move. Those beyond the limit are lost. -/
def Move.kept (literals : List Int16) : Move → List Int16
  | .stay => literals
  | .push value => (value :: literals).take Assembler.literalLimit
  | .pop count => literals.drop count
  | .clear => []

theorem Move.length_kept_le {literals : List Int16} (h : literals.length ≤ Assembler.literalLimit)
    (move : Move) : (move.kept literals).length ≤ Assembler.literalLimit := by
  cases move with
  | stay => exact h
  | push value => exact List.length_take_le _ _
  | pop count => exact Nat.le_trans (by simp [kept]) h
  | clear => exact Nat.zero_le _

/-- Where a branch or a call goes. -/
def Instr.target? : Instr → Option Nat
  | call target | jumpZero target | jump target => some target
  | _ => none

/-- What is asked of an action beside the change of the image, and what it may do to get there. -/
structure Demand where
  move : Move := .stay
  /-- What is awaited from then on, if not the same as before. -/
  awaits : Option Awaiting := none
  /-- The offsets that a branch or a call may be compiled to. -/
  calls : Nat → Prop := fun _ => False
  /-- Code may be compiled, and the open definition closed. -/
  compiles : Prop := False
  /-- A definition may be opened. -/
  opens : Prop := False
  /-- A word may be forgotten. -/
  forgets : Prop := False
  /-- The store may be written. -/
  stores : Prop := False
  /-- Options may be set. -/
  configures : Prop := False

/-- No code is compiled, and no operand is awaited. -/
structure Demand.Interprets (demand : Demand) : Prop where
  compiles : ¬ demand.compiles
  awaits : demand.awaits ≠ some .operand

/-- Who asks for the second also asks for the first. -/
structure Demand.Le (demand demand' : Demand) : Prop where
  move : demand.move = demand'.move := by rfl
  awaits : demand.awaits = demand'.awaits := by rfl
  calls : ∀ target, demand.calls target → demand'.calls target := by exact fun _ => False.elim
  compiles : demand.compiles → demand'.compiles := by first | exact id | exact False.elim
  opens : demand.opens → demand'.opens := by first | exact id | exact False.elim
  forgets : demand.forgets → demand'.forgets := by first | exact id | exact False.elim
  stores : demand.stores → demand'.stores := by first | exact id | exact False.elim
  configures : demand.configures → demand'.configures := by first | exact id | exact False.elim

namespace Memory
variable {m m' : Memory}

theorem of_foldlM_set16? {filled : List (Patch × Nat)}
    (h : filled.foldlM (fun m (patch, word) => m.set16? patch.site word) m = some m') :
    m'.size = m.size ∧ m'.here = m.here := by
  induction filled generalizing m with
  | nil =>
    cases h
    exact ⟨rfl, rfl⟩
  | cons next filled ih =>
    obtain ⟨patch, word⟩ := next
    rw [List.foldlM_cons] at h
    obtain ⟨n, hn, hrest⟩ := Option.bind_eq_some_iff.mp h
    obtain ⟨hsize, hhere⟩ := ih hrest
    exact ⟨hsize.trans (size_of_set16? hn), hhere.trans (here_of_set16? hn)⟩

/-- Wherever the branches are that are filled in, the cursor moves on, and only by the code. -/
theorem of_commit_eq_ok {code : List UInt8} {patches : List Patch} {start : Nat}
    (h : m.commit code patches = .ok (start, m')) :
    m'.size = m.size ∧ m'.here = m.here + code.length := by
  unfold commit at h
  split at h
  · cases h
  split at h
  · cases h
  · cases h
  · rename_i hpush
    split at h
    · cases h
    · rename_i hfill
      cases h
      obtain ⟨hsize, hhere⟩ := of_foldlM_set16? hfill
      obtain ⟨-, halloc, hsize'⟩ := of_push?_eq_some hpush
      have hlength := congrArg List.length halloc
      rw [List.length_append, length_allocated, length_allocated] at hlength
      exact ⟨hsize.trans hsize', hhere.trans hlength⟩

end Memory

namespace Action
open Assembler
variable {a : Assembler}

theorem yields_emit (code : List Instr) (patches : List Patch) :
    (emit code patches).Yields
      (fun _ a' => Extends a a' ∧ a'.frames = a.frames ∧ a.here ≤ a'.here)
      (fun _ a' => a' = a) a := by
  simp only [emit, commit, yields_bind, yields_ofExcept, yields_get, yields_ofHalting,
    yields_setDictionary, yields_pure, implies_true, and_true]
  rintro bytes - ⟨start, m⟩ hcommit
  obtain ⟨hsize, hhere⟩ := Memory.of_commit_eq_ok hcommit
  have hle : a.dictionary.memory.here ≤ m.here := by
    rw [hhere]
    exact Nat.le_add_right _ _
  exact ⟨⟨⟨hsize, rfl, rfl, rfl, rfl⟩, rfl, rfl, rfl⟩, trivial, hle⟩

/-- Wherever a word is compiled, nothing but the code and the frames is different. -/
theorem yields_action (word : Symbol Instr) :
    (word.action id).Yields (fun _ a' => Extends a a' ∧ a.here ≤ a'.here) (fun _ a' => a' = a)
      a := by
  cases word with
  | plain instr => exact (yields_emit [instr] []).imp fun _ _ h => ⟨h.1, h.2.2⟩
  | begin =>
    simp only [Symbol.action, openLoop, yields_bind, yields_get, yields_ite, yields_refuse,
      yields_setFrames, yields_pure]
    exact ⟨fun _ => trivial, fun _ => ⟨⟨⟨rfl, rfl, rfl, rfl, rfl⟩, rfl, rfl, rfl⟩, Nat.le_refl _⟩⟩
  | control word =>
    simp only [Symbol.action, control, yields_bind, yields_get, yields_ofExcept, implies_true,
      and_true]
    intro plan _
    apply (yields_emit plan.code plan.patches).imp
    rintro _ a' ⟨hext, -, hle⟩
    simp only [yields_bind, yields_setFrames, yields_pure]
    exact ⟨⟨⟨hext.size, hext.options, hext.awaiting, hext.literals, hext.storage⟩, hext.head,
      hext.definition, hext.mode⟩, hle⟩

end Action

namespace Assembler

/-- The dictionary without the definition that is open. -/
def Reverts (a : Assembler) (d : Dictionary) : Prop :=
  match a.definition with
  | none => d = a.dictionary
  | some definition => a.dictionary.truncate definition.address definition.previous = .ok d

/-- What an action that is accepted may have made of an assembler. -/
inductive Change (demand : Demand) (a : Assembler) : Assembler → Prop
  /-- Nothing but what is awaited, and the literals. -/
  | beside {awaiting : Awaiting} {literals : List Int16} :
      Change demand a { a with awaiting, literals }
  | configured {options : Options} (configures : demand.configures) :
      Change demand a { a with options }
  | stored {storage : Storage} (stores : demand.stores) : Change demand a { a with storage }
  /-- A word of a body has been compiled, inside a definition or not. -/
  | compiled {word : Symbol Instr} {outcome : Outcome} {b : Assembler}
      (compiles : demand.compiles) (run : (word.action id).run a = .ok outcome b) :
      Change demand a b
  | opened {name : String} {address : Nat} {d : Dictionary} (opens : demand.opens)
      (isClosed : a.definition = none)
      (push : a.dictionary.push name true = .ok (address, d)) :
      Change demand a { a with
        dictionary := d
        definition := some ⟨name, address, a.dictionary.head⟩
        mode := .compile
        frames := [] }
  | closed {definition : Definition} {outcome : Outcome} {b : Assembler} {d : Dictionary}
      (compiles : demand.compiles) (isOpen : a.definition = some definition)
      (balanced : a.frames = []) (run : (Action.emit [.ret] []).run a = .ok outcome b)
      (reveal : b.dictionary.reveal = .ok d) :
      Change demand a { b with dictionary := d, definition := none, mode := .interpret }
  | dropped {d : Dictionary} (reverts : a.Reverts d) :
      Change demand a { a with
        dictionary := d
        definition := none
        mode := .interpret
        frames := []
        awaiting := .nothing }
  | cleared {d : Dictionary} (reverts : a.Reverts d) :
      Change demand a { a with
        dictionary := d.reset
        definition := none
        mode := .interpret
        frames := []
        awaiting := .nothing
        literals := [] }
  /-- A variable or a constant has been defined. -/
  | added {name : String} {b : Assembler} {literals : List Int16} (acquires : a.Acquires name b) :
      Change demand a { b with literals }
  | forgotten {name : String} {address : Nat} {d : Dictionary} (forgets : demand.forgets)
      (isClosed : a.definition = none)
      (forget : a.dictionary.forget a.options.foldCase name = .ok (address, d)) :
      Change demand a { a with dictionary := d }
  | loaded {bytes : List UInt8} {head : Link} {d : Dictionary} (isClosed : a.definition = none)
      (restore : a.dictionary.restore bytes head = .ok d) :
      Change demand a { a with dictionary := d, frames := [], mode := .interpret }

theorem Change.mono {demand demand' : Demand} {a a' : Assembler} (h : Change demand a a')
    (hle : demand.Le demand') : Change demand' a a' := by
  cases h with
  | beside => exact .beside
  | configured configures => exact .configured (hle.configures configures)
  | stored stores => exact .stored (hle.stores stores)
  | compiled compiles run => exact .compiled (hle.compiles compiles) run
  | opened opens isClosed push => exact .opened (hle.opens opens) isClosed push
  | closed compiles isOpen balanced run reveal =>
    exact .closed (hle.compiles compiles) isOpen balanced run reveal
  | dropped reverts => exact .dropped reverts
  | cleared reverts => exact .cleared reverts
  | added acquires => exact .added acquires
  | forgotten forgets isClosed forget => exact .forgotten (hle.forgets forgets) isClosed forget
  | loaded isClosed restore => exact .loaded isClosed restore

theorem Change.storage {demand : Demand} {a a' : Assembler} (h : Change demand a a')
    (hstores : ¬ demand.stores) : a'.storage = a.storage := by
  cases h with
  | stored stores => exact absurd stores hstores
  | compiled _ run => exact ((Action.yields_action _).of_ok run).1.storage
  | closed _ _ _ run => exact ((Action.yields_emit [.ret] []).of_ok run).1.storage
  | added acquires => exact acquires.keeps.storage
  | _ => rfl

/-- While no definition is open, only what may open one does. -/
theorem Change.isClosed {demand : Demand} {a a' : Assembler} (h : Change demand a a')
    (hclosed : a.definition = none) (hopens : ¬ demand.opens) : a'.definition = none := by
  cases h with
  | compiled _ run => exact ((Action.yields_action _).of_ok run).1.definition.trans hclosed
  | opened opens => exact absurd opens hopens
  | closed => rfl
  | dropped => rfl
  | cleared => rfl
  | added acquires =>
    obtain ⟨body, hadded⟩ := acquires.added
    exact hadded.definition
  | _ => exact hclosed

/-- What an assertion may have been failed by. -/
inductive Fault (demand : Demand) (a : Assembler) (assertion : Assertion) : Prop
  | compiling (word : Symbol Instr) {b : Assembler} (compiles : demand.compiles)
      (run : (word.action id).run a = .error (.violated assertion) b)
  | closing {definition : Definition} {outcome : Outcome} {b : Assembler}
      (compiles : demand.compiles) (isOpen : a.definition = some definition)
      (balanced : a.frames = []) (run : (Action.emit [.ret] []).run a = .ok outcome b)
      (reveal : b.dictionary.reveal = .error assertion)
  | dropping {definition : Definition} (isOpen : a.definition = some definition)
      (truncate : a.dictionary.truncate definition.address definition.previous = .error assertion)
  | forgetting {name : String} (forgets : demand.forgets) (isClosed : a.definition = none)
      (forget : a.dictionary.forget a.options.foldCase name = .error (.violated assertion))

theorem Fault.mono {demand demand' : Demand} {a : Assembler} {assertion : Assertion}
    (h : Fault demand a assertion) (hle : demand.Le demand') : Fault demand' a assertion := by
  cases h with
  | compiling word compiles run => exact .compiling word (hle.compiles compiles) run
  | closing compiles isOpen balanced run reveal =>
    exact .closing (hle.compiles compiles) isOpen balanced run reveal
  | dropping isOpen truncate => exact .dropping isOpen truncate
  | forgetting forgets isClosed forget => exact .forgetting (hle.forgets forgets) isClosed forget

/-- What comes of an action that is accepted. -/
structure Effect (demand : Demand) (a a' : Assembler) : Prop where
  literals : a'.literals = demand.move.kept a.literals
  awaiting : a'.awaiting = demand.awaits.getD a.awaiting
  change : Change demand a a'

/-- What comes of an action that fails. A refusal changes nothing. -/
structure Failure (demand : Demand) (a : Assembler) (halt : Halt) (a' : Assembler) : Prop where
  literals : a'.literals = a.literals
  refused : ∀ e, halt = .refused e → a' = a
  /-- What is out of reach is so from a word that would be compiled. -/
  reach : ∀ e, halt = .refused e → e.OutOfReach → ∃ (word : Symbol Instr) (b : Assembler),
    (∀ instr, word = .plain instr → ∀ target ∈ instr.target?, demand.calls target) ∧
      (word.action id).run a = .error halt b
  fault : ∀ assertion, halt = .violated assertion → Fault demand a assertion

theorem Failure.of_refused {demand : Demand} {a : Assembler} {e : Error} (h : ¬ e.OutOfReach) :
    Failure demand a (.refused e) a where
  literals := rfl
  refused := fun _ _ => rfl
  reach := by
    rintro _ ⟨⟩ hreach
    exact absurd hreach h
  fault := nofun

theorem Failure.of_fault {demand : Demand} {a a' : Assembler} {assertion : Assertion}
    (hliterals : a'.literals = a.literals) (h : Fault demand a assertion) :
    Failure demand a (.violated assertion) a' where
  literals := hliterals
  refused := nofun
  reach := nofun
  fault := by
    rintro _ ⟨⟩
    exact h

end Assembler

namespace Action
open Assembler
variable {α β : Type} {demand : Demand} {a s : Assembler}

/-- From `a`, where nothing has been changed since `s` if it fails, the action does what is
demanded. -/
def Does (x : Action α) (demand : Demand) (s a : Assembler) : Prop :=
  x.Yields (fun _ a' => Effect demand s a') (fun halt a' => Failure demand s halt a') a

/-- What is accepted. -/
theorem Does.accepts {x : Action α} (h : x.Does demand s a) :
    x.Meets (fun _ a' => Effect demand s a') (fun _ _ => True) True a := by
  rw [meets_eq_yields]
  apply Yields.imp_failed h
  rintro (e | assertion) _ _ <;> trivial

/-- What is refused changes nothing. -/
theorem Does.refuses {x : Action α} (h : x.Does demand s a) :
    x.Meets (fun _ _ => True) (fun _ a' => a' = s) True a := by
  rw [meets_eq_yields]
  apply Yields.mono h
  · exact fun _ _ _ => trivial
  · rintro (e | assertion) a' hfailure
    · exact hfailure.refused e rfl
    · trivial

/-- What no change takes away stays. -/
theorem Does.keeps {x : Action α} (h : x.Does demand s a) {P : Assembler → Prop} (hs : P s)
    (hchange : ∀ a', Change demand s a' → P a') :
    x.Meets (fun _ => P) (fun _ => P) True a := by
  apply (h.accepts.with_refused h.refuses).mono
  · exact fun _ a' heffect => hchange a' heffect.change
  · rintro _ _ rfl
    exact hs
  · exact id

theorem Does.of_run_eq {x y : Action α} (hrun : x.run a = y.run a) (h : y.Does demand s a) :
    x.Does demand s a := by
  unfold Does Yields
  rwa [hrun]

theorem does_get {f : Assembler → Action α} :
    (get >>= f).Does demand s a ↔ (f a).Does demand s a := Iff.rfl

theorem does_takeAwaiting {f : Awaiting → Action α} :
    (takeAwaiting >>= f).Does demand s a ↔
      (f a.awaiting).Does demand s { a with awaiting := .nothing } := Iff.rfl

theorem Does.mono {x : Action α} (h : x.Does demand s a) {demand' : Demand}
    (hle : demand.Le demand') : x.Does demand' s a := by
  apply Yields.mono h
  · rintro _ a' ⟨hliterals, hawaiting, hchange⟩
    exact ⟨hle.move ▸ hliterals, hle.awaits ▸ hawaiting, hchange.mono hle⟩
  · rintro halt a' ⟨hliterals, hrefused, hreach, hfault⟩
    refine ⟨hliterals, hrefused, fun e he hout => ?_, fun assertion h => (hfault _ h).mono hle⟩
    obtain ⟨word, b, hword, hrun⟩ := hreach e he hout
    exact ⟨word, b, fun instr heq target ht => hle.calls target (hword instr heq target ht), hrun⟩

theorem Does.bind {x : Action α} {f : α → Action β} (h : x.Does demand s a)
    (hf : ∀ v b, (f v).Yields (fun _ a' => a' = b) (fun _ _ => False) b) :
    (x >>= f).Does demand s a := by
  rw [Does, yields_bind]
  apply Yields.imp h
  intro v b heffect
  apply (hf v b).mono
  · rintro _ _ rfl
    exact heffect
  · exact fun _ _ hfalse => hfalse.elim

theorem Does.map {x : Action α} (h : x.Does demand s a) (f : α → β) :
    (f <$> x).Does demand s a :=
  (yields_map f x).mpr h

theorem does_action (word : Symbol Instr) :
    (word.action id).Does {
      calls := fun target => ∃ instr, word = .plain instr ∧ target ∈ instr.target?
      compiles := True } a a := by
  apply (yields_action word).with_run.mono
  · rintro outcome a' ⟨hrun, hext, -⟩
    exact ⟨hext.literals, hext.awaiting, .compiled trivial hrun⟩
  · rintro halt _ ⟨hrun, rfl⟩
    refine ⟨rfl, fun _ _ => rfl, fun _ _ _ => ⟨word, _, fun i heq _ ht => ⟨i, heq, ht⟩, hrun⟩, ?_⟩
    rintro assertion rfl
    exact .compiling _ trivial hrun

/-- An instruction that is neither a branch nor a call. -/
theorem does_emit {instr : Instr} (hplain : instr.target? = none) :
    (emit [instr] []).Does { compiles := True } a a := by
  apply (does_action (.plain instr)).mono
  refine { calls := ?_ }
  rintro target ⟨i, heq, htarget⟩
  rw [← Symbol.plain.inj heq, hplain] at htarget
  cases htarget

theorem does_define (name : String) : (define name).Does { opens := True } a a := by
  simp only [Does, define, yields_bind, yields_requireClosed, yields_get, yields_ofExcept,
    yields_setDictionary, yields_modify, yields_pure]
  refine ⟨fun _ => .of_refused id, fun hclosed => ⟨?_, fun e he => .of_refused ?_⟩⟩
  · rintro ⟨address, d⟩ hpush
    exact ⟨rfl, rfl, .opened trivial hclosed hpush⟩
  · exact Dictionary.not_outOfReach_of_push he

theorem does_close : close.Does { compiles := True } a a := by
  simp only [Does, close, yields_bind, yields_get]
  split
  · rename_i definition hdefinition hframes
    rw [yields_bind]
    apply (yields_emit [.ret] []).with_run.mono
    · rintro outcome b ⟨hrun, hext, -⟩
      simp only [yields_bind, yields_get, yields_ofChecked, yields_setDictionary, yields_modify,
        yields_pure]
      refine ⟨fun d hreveal => ⟨hext.literals, hext.awaiting, ?_⟩, fun assertion hreveal => ?_⟩
      · exact .closed trivial hdefinition hframes hrun hreveal
      · exact .of_fault hext.literals (.closing trivial hdefinition hframes hrun hreveal)
    · rintro halt _ ⟨hrun, rfl⟩
      refine ⟨rfl, fun _ _ => rfl, fun _ _ _ => ⟨.plain .ret, _, ?_, hrun⟩, ?_⟩
      · rintro _ ⟨⟩ _ ⟨⟩
      · rintro assertion rfl
        exact .compiling (.plain .ret) trivial hrun
  · exact .of_refused id

/-- What is left of the assembler without the open definition. -/
theorem yields_abort :
    abort.Yields
      (fun _ a' => ∃ d, a.Reverts d ∧ a' = { a with
        dictionary := d
        definition := none
        mode := .interpret
        frames := []
        awaiting := .nothing })
      (fun halt a' => a'.literals = a.literals ∧ ∃ definition assertion,
        a.definition = some definition ∧ halt = .violated assertion ∧
          a.dictionary.truncate definition.address definition.previous = .error assertion) a := by
  simp only [abort, yields_bind, yields_await, yields_setFrames, yields_get]
  cases hdefinition : a.definition with
  | none =>
    rw [yields_setMode]
    refine ⟨a.dictionary, ?_, ?_⟩
    · rw [Reverts, hdefinition]
    · rfl
  | some definition =>
    simp only [yields_bind, yields_modify, yields_get, yields_ofChecked, yields_setDictionary,
      yields_setMode]
    refine ⟨fun d htruncate => ⟨d, ?_, rfl⟩, fun assertion htruncate => ?_⟩
    · rwa [Reverts, hdefinition]
    · exact ⟨trivial, definition, assertion, rfl, rfl, htruncate⟩

theorem does_abort : abort.Does { awaits := some .nothing } a a := by
  apply yields_abort.mono
  · rintro _ _ ⟨d, hreverts, rfl⟩
    exact ⟨rfl, rfl, .dropped hreverts⟩
  · rintro _ _ ⟨hliterals, definition, assertion, hdefinition, rfl, htruncate⟩
    exact .of_fault hliterals (.dropping hdefinition htruncate)

theorem does_reset : reset.Does { move := .clear, awaits := some .nothing } a a := by
  rw [Does, reset, yields_bind]
  apply yields_abort.mono
  · rintro _ _ ⟨d, hreverts, rfl⟩
    exact ⟨rfl, rfl, .cleared hreverts⟩
  · rintro _ _ ⟨hliterals, definition, assertion, hdefinition, rfl, htruncate⟩
    exact .of_fault hliterals (.dropping hdefinition htruncate)

theorem does_addsWord {x : Action Nat} {name : String} (h : x.AddsWord name a) : x.Does {} a a := by
  apply h.yields.mono
  · intro _ a' hacquires
    exact ⟨hacquires.keeps.literals, hacquires.keeps.awaiting, .added hacquires⟩
  · rintro _ _ ⟨e, rfl, rfl, hreach⟩
    exact .of_refused hreach

theorem does_forget (name : String) : (forget name).Does { forgets := True } a a := by
  simp only [Does, forget, yields_bind, yields_requireClosed, yields_get, yields_ofHalting,
    yields_setDictionary, yields_pure]
  refine ⟨fun _ => .of_refused id, fun hclosed => ⟨?_, fun halt hforget => ?_⟩⟩
  · rintro ⟨address, d⟩ hforget
    exact ⟨rfl, rfl, .forgotten trivial hclosed hforget⟩
  · cases halt with
    | violated assertion => exact .of_fault rfl (.forgetting trivial hclosed hforget)
    | refused e =>
      apply Failure.of_refused
      unfold Dictionary.forget at hforget
      split at hforget
      · cases hforget
        exact id
      · split at hforget <;> cases hforget

theorem does_load (blob : List UInt8) : (load blob).Does {} a a := by
  simp only [Does, load, yields_bind, yields_requireClosed, yields_get, yields_ofExcept_mapError,
    yields_setDictionary, yields_setFrames, yields_setMode, yields_pure]
  refine ⟨fun _ => .of_refused id, fun hclosed => ⟨fun image _ => ⟨fun d hrestore => ?_, ?_⟩, ?_⟩⟩
  · exact ⟨rfl, rfl, .loaded hclosed hrestore⟩
  · exact fun _ _ => .of_refused id
  · exact fun _ _ => .of_refused id

theorem does_save (autorun : Bool) : (save autorun).Does {} a a := by
  simp only [Does, save, yields_bind, yields_requireClosed, yields_get, yields_pure]
  exact ⟨fun _ => .of_refused id, fun _ => ⟨rfl, rfl, .beside⟩⟩

theorem does_saveToStorage (autorun : Bool) :
    (saveToStorage autorun).Does { stores := True } a a := by
  have hwrite {blob : List UInt8} {e : Error} (h : a.storage.write blob = .error e) :
      ¬ e.OutOfReach := by
    unfold Storage.write at h
    split at h
    · cases h
    · cases h
      exact id
  simp only [Does, saveToStorage, save, yields_bind, yields_requireClosed, yields_get, yields_pure]
  refine ⟨fun _ => .of_refused id, fun _ => ?_⟩
  split
  · simp only [yields_ite, yields_refuse, yields_bind, yields_pure, yields_ofExcept,
      yields_modify]
    refine ⟨fun _ => .of_refused id, fun _ => ⟨fun _ _ => ⟨rfl, rfl, .stored trivial⟩, ?_⟩⟩
    exact fun _ he => .of_refused (hwrite he)
  · simp only [yields_bind, yields_pure, yields_ofExcept, yields_modify]
    exact ⟨fun _ _ => ⟨rfl, rfl, .stored trivial⟩, fun _ he => .of_refused (hwrite he)⟩

theorem does_loadFromStorage : loadFromStorage.Does {} a a := by
  simp only [Does, loadFromStorage, yields_bind, yields_get, yields_ofExcept]
  refine ⟨fun content _ => ?_, fun e hread => .of_refused ?_⟩
  · cases content with
    | none => exact .of_refused id
    | some blob => exact does_load blob
  · unfold Storage.read at hread
    split at hread
    · cases hread
    · cases hread
      exact id

end Action
end ForthAssembler
