import ForthAssembler.Proofs.Assembler.Revoking

/-! What every regular operation keeps, whatever was loaded: the open definition is that of a
draft. -/
namespace ForthAssembler
open Assembler Instr Text

/-- The open definition is the newest entry, and what is compiled of it is a draft. While none is
open no control structure is, and words are interpreted. -/
structure Steady (capacity : Capacity) (a : Assembler) : Prop extends Revocable capacity a where
  literals : a.literals.length ≤ literalLimit
  closed : a.definition = none → a.frames = [] ∧ a.awaiting ≠ .operand ∧ a.mode = .interpret
  opened : ∀ definition, a.definition = some definition → ∃ older draft,
    a.Defines id older definition.previous definition.name draft ∧
      ∀ n ∈ definition.previous, n < older.length

namespace Steady
variable {capacity : Capacity} {a a' : Assembler} {older : List UInt8} {link : Link}
  {name : String}

theorem new (capacity : Capacity) (options : Options) (storage : Storage) :
    Steady capacity (.new capacity options storage) where
  toRevocable := .new capacity options storage
  literals := Nat.zero_le _
  closed := fun _ => ⟨rfl, nofun, rfl⟩
  opened := nofun

/-- By cases on the change. No code is compiled, so what is defined is either left as it is, or
begins, or is gone. -/
theorem change {demand : Demand} (h : Steady capacity a) (hchange : Change demand a a')
    (hcompiles : ¬ demand.compiles) (hliterals : a'.literals.length ≤ literalLimit)
    (hawaiting : a'.awaiting = .operand → a.awaiting = .operand) : Steady capacity a' where
  toRevocable := h.toRevocable.change hchange
  literals := hliterals
  closed := by
    intro hclosed
    have hawaits (hnone : a.definition = none) : a'.awaiting ≠ .operand := fun hoperand =>
      (h.closed hnone).2.1 (hawaiting hoperand)
    cases hchange with
    | beside =>
      obtain ⟨hframes, -, hmode⟩ := h.closed hclosed
      exact ⟨hframes, hawaits hclosed, hmode⟩
    | configured => exact h.closed hclosed
    | stored => exact h.closed hclosed
    | compiled compiles => exact absurd compiles hcompiles
    | opened => cases hclosed
    | closed compiles => exact absurd compiles hcompiles
    | dropped => exact ⟨rfl, nofun, rfl⟩
    | cleared => exact ⟨rfl, nofun, rfl⟩
    | added acquires =>
      obtain ⟨hframes, -, hmode⟩ := h.closed acquires.closed
      exact ⟨acquires.frames.trans hframes, hawaits acquires.closed, acquires.mode.trans hmode⟩
    | forgotten _ isClosed =>
      obtain ⟨hframes, -, hmode⟩ := h.closed isClosed
      exact ⟨hframes, hawaits isClosed, hmode⟩
    | loaded isClosed => exact ⟨rfl, hawaits isClosed, rfl⟩
  opened := by
    intro definition hopen
    cases hchange with
    | beside =>
      obtain ⟨older, draft, hdefines, hlink⟩ := h.opened definition hopen
      exact ⟨older, draft, hdefines.congr rfl rfl rfl rfl, hlink⟩
    | configured =>
      obtain ⟨older, draft, hdefines, hlink⟩ := h.opened definition hopen
      exact ⟨older, draft, hdefines.congr rfl rfl rfl rfl, hlink⟩
    | stored =>
      obtain ⟨older, draft, hdefines, hlink⟩ := h.opened definition hopen
      exact ⟨older, draft, hdefines.congr rfl rfl rfl rfl, hlink⟩
    | compiled compiles => exact absurd compiles hcompiles
    | opened _ _ push =>
      cases hopen
      refine ⟨_, _, defines_of_push id push, ?_⟩
      rw [Memory.length_allocated]
      exact h.head
    | closed compiles => exact absurd compiles hcompiles
    | dropped => cases hopen
    | cleared => cases hopen
    | added acquires =>
      obtain ⟨body, hadded⟩ := acquires.added
      cases hadded.definition.symm.trans hopen
    | forgotten _ isClosed => cases isClosed.symm.trans hopen
    | loaded isClosed => cases isClosed.symm.trans hopen

/-- Nothing matters of what is awaited but an operand. -/
theorem await (h : Steady capacity a) {awaiting : Awaiting} (hawaiting : awaiting ≠ .operand) :
    Steady capacity { a with awaiting } :=
  h.change (Change.beside : Change {} a _) id h.literals fun hoperand => absurd hoperand hawaiting

/-- Words are interpreted exactly while no definition is open. -/
theorem mode_eq_interpret_iff (h : Steady capacity a) :
    a.mode = .interpret ↔ a.definition = none := by
  refine ⟨fun hmode => ?_, fun hclosed => (h.closed hclosed).2.2⟩
  cases hdefinition : a.definition with
  | none => rfl
  | some definition =>
    obtain ⟨older, draft, hdefines, -⟩ := h.opened definition hdefinition
    cases hmode.symm.trans hdefines.mode

theorem of_added (hsize : a.dictionary.memory.size = capacity.bytes)
    (hliterals : a.literals.length ≤ literalLimit) (hframes : a.frames = [])
    (hawaiting : a.awaiting ≠ .operand) (hmode : a.mode = .interpret) {body : List UInt8}
    (h : a.Added older link name body) : Steady capacity a :=
  ⟨.of_added hsize h, hliterals, fun _ => ⟨hframes, hawaiting, hmode⟩, by simp [h.definition]⟩

theorem of_continues (h : Steady capacity a) (hlink : ∀ n ∈ link, n < older.length)
    (h' : Continues older link name a a') : Steady capacity a' := by
  have hsize : a'.dictionary.memory.size = capacity.bytes := h'.size.trans h.size
  have hliterals : a'.literals.length ≤ literalLimit := by
    rw [h'.literals]
    exact h.literals
  obtain ⟨draft, hdefines⟩ | ⟨hawaiting, hframes, hmode, body, hadded⟩ := h'.outcome
  · refine ⟨.of_defines hsize hdefines hlink, hliterals, ?_, ?_⟩
    · simp [hdefines.definition]
    · rw [hdefines.definition]
      rintro _ ⟨⟩
      exact ⟨older, draft, hdefines, hlink⟩
  · exact of_added hsize hliterals hframes (by simp [hawaiting]) hmode hadded

end Steady
end ForthAssembler
