import ForthAssembler.Assembler.State
import ForthAssembler.Proofs.Dictionary.Alike

/-! Contracts of two runs at once: from assemblers that differ only in what cannot be seen, actions
give the same result and leave such assemblers. -/
namespace ForthAssembler

/-- What two assemblers share beside the code, the cursor and what is open. -/
structure Shared where
  storage : Prop
  literals : Prop := True
  tracing : Prop := True

namespace Assembler

/-- The assemblers differ only behind the cursor, and in what they do not share. -/
structure Similar (shared : Shared) (a b : Assembler) : Prop where
  dictionary : a.dictionary.Alike b.dictionary
  hex : a.options.hex = b.options.hex
  foldCase : a.options.foldCase = b.options.foldCase
  shortLiterals : a.options.shortLiterals = b.options.shortLiterals
  tracing : shared.tracing → a.options.trace = b.options.trace
  mode : a.mode = b.mode
  frames : a.frames = b.frames
  awaiting : a.awaiting = b.awaiting
  definition : a.definition = b.definition
  literals : shared.literals → a.literals = b.literals
  storage : shared.storage → a.storage = b.storage

/-- The assemblers differ only behind the cursor, and, unless `stores`, in what is stored. -/
abbrev Alike (stores : Prop) : Assembler → Assembler → Prop := Similar { storage := stores }

namespace Similar
variable {shared : Shared} {a b : Assembler}

theorem here (h : Similar shared a b) : a.here = b.here := h.dictionary.here

theorem radix (h : Similar shared a b) : a.options.radix = b.options.radix := by
  rw [Options.radix, h.hex, ← Options.radix]

theorem options (h : Similar shared a b) (htracing : shared.tracing) : a.options = b.options := by
  have htrace := h.tracing htracing
  have hhex := h.hex
  have hfold := h.foldCase
  have hshort := h.shortLiterals
  generalize a.options = o, b.options = o' at *
  cases o
  cases o'
  simp_all

theorem isCompiling (h : Similar shared a b) : a.isCompiling = b.isCompiling := by
  rw [Assembler.isCompiling, h.definition, ← Assembler.isCompiling]

theorem isCollecting (h : Similar shared a b) : a.isCollecting = b.isCollecting := by
  rw [Assembler.isCollecting, h.awaiting, ← Assembler.isCollecting]

theorem classify (h : Similar shared a b) (text : String) : a.classify text = b.classify text := by
  simp only [Assembler.classify, Token.classify, h.dictionary.find?, h.mode, h.foldCase, h.radix]

theorem lookup? (h : Similar shared a b) (name : String) : a.lookup? name = b.lookup? name := by
  rw [Assembler.lookup?, Assembler.find?, h.dictionary.find?, h.foldCase, ← Assembler.find?,
    ← Assembler.lookup?]

end Similar
end Assembler

namespace Action
open Assembler
variable {α β γ δ : Type} {shared : Shared} {a b : Assembler}

/-- From `a` and `b` the actions either succeed with related values or fail alike, and leave the
assemblers similar. -/
def Couples (shared : Shared) (R : α → β → Prop) (x : Action α) (y : Action β) (a b : Assembler) :
    Prop :=
  match x.run a, y.run b with
  | .ok v a', .ok w b' => R v w ∧ a'.Similar shared b'
  | .error halt a', .error halt' b' => halt = halt' ∧ a'.Similar shared b'
  | _, _ => False

/-- What similar assemblers do not share makes no difference to the action. -/
def Blind (shared : Shared) (x : Action α) : Prop :=
  ∀ a b, a.Similar shared b → Couples shared Eq x x a b

theorem ofExcept_eq (r : Except Error α) : ofExcept r = ofHalting (r.mapError .refused) := by
  cases r <;> rfl

theorem ofChecked_eq (r : Except Assertion α) : ofChecked r = ofHalting (r.mapError .violated) := by
  cases r <;> rfl

section
variable {R : α → β → Prop} {S : γ → δ → Prop}

theorem couples_pure {v : α} {w : β} (hvw : R v w) (h : a.Similar shared b) :
    Couples shared R (pure v) (pure w) a b := ⟨hvw, h⟩

theorem couples_throw (halt : Halt) (h : a.Similar shared b) :
    Couples shared R (throw halt) (throw halt) a b := ⟨rfl, h⟩

theorem Couples.run_cases {x : Action α} {y : Action β} (h : Couples shared R x y a b) :
    (∃ v w a' b', x.run a = .ok v a' ∧ y.run b = .ok w b' ∧ R v w ∧ a'.Similar shared b') ∨
      ∃ halt a' b', x.run a = .error halt a' ∧ y.run b = .error halt b' ∧ a'.Similar shared b' := by
  unfold Couples at h
  split at h
  · exact .inl ⟨_, _, _, _, ‹_›, ‹_›, h.1, h.2⟩
  · obtain ⟨rfl, h⟩ := h
    exact .inr ⟨_, _, _, ‹_›, ‹_›, h⟩
  · exact h.elim

/-- What succeeds here succeeds there. -/
theorem Couples.exists_of_ok {x : Action α} {y : Action β} (h : Couples shared R x y a b) {v : α}
    {a' : Assembler} (hrun : x.run a = .ok v a') :
    ∃ w b', y.run b = .ok w b' ∧ R v w ∧ a'.Similar shared b' := by
  obtain ⟨_, w, _, b', hx, hy, hvw, h'⟩ | ⟨halt, _, _, hx, -, -⟩ := h.run_cases
  · cases hrun.symm.trans hx
    exact ⟨w, b', hy, hvw, h'⟩
  · cases hrun.symm.trans hx

theorem Couples.bind {x : Action α} {y : Action β} {f : α → Action γ} {g : β → Action δ}
    (h : Couples shared R x y a b)
    (hf : ∀ v w a' b', R v w → a'.Similar shared b' → Couples shared S (f v) (g w) a' b') :
    Couples shared S (x >>= f) (y >>= g) a b := by
  obtain ⟨v, w, a', b', hx, hy, hvw, h'⟩ | ⟨halt, a', b', hx, hy, h'⟩ := h.run_cases
  · have hrest := hf v w a' b' hvw h'
    simp only [EStateM.run] at hx hy
    unfold Couples at hrest ⊢
    simpa only [Bind.bind, EStateM.bind, EStateM.run, hx, hy] using hrest
  · simp only [EStateM.run] at hx hy
    unfold Couples
    simp only [Bind.bind, EStateM.bind, EStateM.run, hx, hy]
    exact ⟨trivial, h'⟩

theorem couples_get {f : Assembler → Action γ} {g : Assembler → Action δ} :
    Couples shared S (get >>= f) (get >>= g) a b ↔ Couples shared S (f a) (g b) a b := Iff.rfl

theorem couples_takeAwaiting {f : Awaiting → Action γ} {g : Awaiting → Action δ} :
    Couples shared S (takeAwaiting >>= f) (takeAwaiting >>= g) a b ↔
      Couples shared S (f a.awaiting) (g b.awaiting) { a with awaiting := .nothing }
        { b with awaiting := .nothing } := Iff.rfl

theorem couples_modify {f g : Assembler → Assembler} (h : (f a).Similar shared (g b)) :
    Couples shared Eq (modify f : Action PUnit) (modify g) a b := ⟨rfl, h⟩

theorem couples_ofHalting {r : Except Halt α} {r' : Except Halt β} (hr : Agree R r r')
    (h : a.Similar shared b) : Couples shared R (ofHalting r) (ofHalting r') a b := by
  cases r <;> cases r'
  · exact ⟨hr, h⟩
  · exact hr.elim
  · exact hr.elim
  · exact ⟨hr, h⟩

theorem couples_ofExcept {r : Except Error α} {r' : Except Error β} (hr : Agree R r r')
    (h : a.Similar shared b) : Couples shared R (ofExcept r) (ofExcept r') a b := by
  rw [ofExcept_eq, ofExcept_eq]
  exact couples_ofHalting (hr.mapError Halt.refused) h

theorem couples_ofChecked {r : Except Assertion α} {r' : Except Assertion β} (hr : Agree R r r')
    (h : a.Similar shared b) : Couples shared R (ofChecked r) (ofChecked r') a b := by
  rw [ofChecked_eq, ofChecked_eq]
  exact couples_ofHalting (hr.mapError Halt.violated) h

theorem couples_setDictionary {d e : Dictionary} (hd : d.Alike e) (h : a.Similar shared b) :
    Couples shared Eq (setDictionary d) (setDictionary e) a b :=
  couples_modify { h with dictionary := hd }

end

namespace Blind

theorem pure (v : α) : Blind shared (pure v : Action α) := fun _ _ => couples_pure rfl

theorem bind {x : Action α} {f : α → Action β} (hx : Blind shared x)
    (hf : ∀ v, Blind shared (f v)) : Blind shared (x >>= f) := by
  intro a b h
  refine (hx a b h).bind ?_
  rintro v _ a' b' rfl h'
  exact hf v a' b' h'

theorem map {x : Action α} (hx : Blind shared x) (f : α → β) : Blind shared (f <$> x) := by
  rw [← bind_pure_comp]
  exact hx.bind fun v => .pure (f v)

theorem ofExcept (r : Except Error α) : Blind shared (ofExcept r) := by
  cases r with
  | ok v => exact .pure v
  | error e => exact fun _ _ => couples_throw _

/-- Only what the assemblers share may be read from them. -/
theorem get {f : Assembler → Action α} (heq : ∀ a b, a.Similar shared b → f a = f b)
    (hf : ∀ a, Blind shared (f a)) : Blind shared (get >>= f) := by
  intro a b h
  rw [couples_get, heq a b h]
  exact hf b a b h

theorem modify {f : Assembler → Assembler}
    (hf : ∀ a b, a.Similar shared b → (f a).Similar shared (f b)) :
    Blind shared (modify f : Action PUnit) := fun a b h => couples_modify (hf a b h)

end Blind

theorem blind_refuse (e : Error) : Blind shared (refuse e : Action α) :=
  fun _ _ => couples_throw _

theorem blind_ite {c : Prop} [Decidable c] {x y : Action α} (hx : Blind shared x)
    (hy : Blind shared y) : Blind shared (if c then x else y) := by
  split
  · exact hx
  · exact hy

theorem blind_setFrames (frames : List Frame) : Blind shared (setFrames frames) :=
  .modify fun _ _ h => { h with frames := rfl }

theorem blind_await (awaiting : Awaiting) : Blind shared (await awaiting) :=
  .modify fun _ _ h => { h with awaiting := rfl }

theorem blind_takeAwaiting : Blind shared takeAwaiting :=
  fun _ _ h => ⟨h.awaiting, { h with awaiting := rfl }⟩

theorem blind_setMode (mode : Mode) : Blind shared (setMode mode) :=
  .modify fun _ _ h => { h with mode := rfl }

theorem blind_pushLiteral (value : Int16) : Blind shared (pushLiteral value) :=
  .modify fun _ _ h => { h with literals := fun hliterals => by rw [h.literals hliterals] }

theorem blind_popLiteral (hliterals : shared.literals) : Blind shared popLiteral := by
  refine .get (fun a b h => by rw [h.literals hliterals]) fun a => ?_
  split
  · exact blind_refuse _
  · exact .bind (.modify fun _ _ h => { h with literals := fun _ => rfl }) fun _ => .pure _

theorem blind_requireClosed : Blind shared requireClosed :=
  .get (fun a b h => by rw [h.isCompiling]) fun _ => blind_ite (blind_refuse _) (.pure _)

end Action
end ForthAssembler
