import ForthAssembler.Proofs.Assembler.Reading

/-! The compiler accepts the words of a definition as long as they can still become a body. -/
namespace ForthAssembler
open Instr Text

/-- A word that compiles to one instruction and opens or closes nothing. -/
inductive Plain
  | number (value : Int16)
  | call (code : Nat)
  | primitive (id : UInt8)
  | index
  deriving DecidableEq, Repr

namespace Plain

def token : Plain → Token
  | number value => .number value
  | call code => .word code
  | primitive id => .primitive id
  | index => .extended Extended.index.id

def instr (short : Bool) : Plain → Instr
  | number value => Action.literalInstr short value
  | call code => .call code
  | primitive id => .primitive id
  | index => .index

/-- The callee is in reach, and the primitive exists. -/
def Valid : Plain → Prop
  | call code => code ≤ maxTarget
  | primitive id => id < Extended.text.id
  | number _ | index => True

instance : DecidablePred Valid := fun item => by
  cases item <;> unfold Valid <;> infer_instance

theorem Valid.encodable {item : Plain} (h : item.Valid) (short : Bool) :
    (item.instr short).Encodable := by
  cases item with
  | number value => exact Action.encodable_literalInstr short value
  | call code => exact h
  | primitive id => exact h
  | index => exact trivial

theorem compile_token (item : Plain) (a : Assembler) :
    (Action.compile item.token).run a =
      (Action.emit [item.instr a.options.shortLiterals] []).run a := by
  cases item <;> rfl

end Plain

namespace Symbol

def token : Symbol Plain → Token
  | .plain item => item.token
  | .begin => .compileWord .beginWord
  | .control word => word.token

theorem compile_token (word : Symbol Plain) (a : Assembler) :
    (Action.compile word.token).run a =
      (word.action (Plain.instr a.options.shortLiterals)).run a := by
  cases word with
  | plain item => exact item.compile_token a
  | begin => rfl
  | control word => rw [token, Control.compile_token]; rfl

end Symbol

namespace Operation

/-- Compiles words one after another. -/
def compileAll (words : List (Symbol Plain)) : Action Unit :=
  performAll (words.map fun word => .compile word.token)

end Operation
open Operation

theorem Assembler.Compiles.run_compileAll {older : List UInt8} {draft after : Draft.Any Plain}
    {a : Assembler} (h : Compiles (Plain.instr a.options.shortLiterals) older draft a)
    {words : List (Symbol Plain)} (hwords : ∀ item, .plain item ∈ words → item.Valid)
    (hread : Draft.read draft words = some after)
    (hspace : older.length + after.2.size (Plain.instr a.options.shortLiterals) <
      a.dictionary.memory.size) :
    ∃ a', (compileAll words).run a = .ok () a' ∧
      Compiles (Plain.instr a.options.shortLiterals) older after a' ∧ Extends a a' := by
  have hmap : (words.map fun word => Operation.compile word.token) =
      words.flatMap (·.operations fun item => [.compile item.token]) := by
    rw [List.map_eq_flatMap]
    congr 1
    funext word
    cases word <;> rfl
  rw [compileAll, hmap]
  refine h.run_operations _ hread hspace fun item hitem => ⟨(hwords item hitem).encodable _, ?_⟩
  intro b outcome b' hext hrun
  rw [← hext.options, ← Plain.compile_token] at hrun
  exact run_performAll_cons (run_map_ok hrun)

/-- An accepted beginning of a body leaves its draft, and space for the return. -/
private theorem run_viable {older : List UInt8} {link : Link} {name : String} {short : Bool}
    {a : Assembler} (ha : a.Defines (Plain.instr short) older link name Draft.start)
    (hshort : a.options.shortLiterals = short) {words : List (Symbol Plain)}
    (hwords : ∀ item, .plain item ∈ words → item.Valid)
    (hspace : emitted (Plain.instr short) [] words + 1 ≤ a.dictionary.memory.unused)
    (hviable : Viable words) :
    ∃ draft a', Draft.read Draft.start words = some draft ∧ (compileAll words).run a = .ok () a' ∧
      a'.Defines (Plain.instr short) older link name draft ∧ a'.options = a.options ∧
      older.length + (Entry.nameOffset + (utf8 name).length) + draft.2.size (Plain.instr short) <
        a'.dictionary.memory.size := by
  obtain ⟨draft, hread⟩ := Draft.viable_iff_read.mp hviable
  have hsize := Draft.size_read (Plain.instr short) hread
  have hhere := ha.code.here_eq
  have hunused := a.dictionary.memory.here_add_unused
  simp only [Draft.start, Draft.size, Body.size, Draft.loops, Nat.zero_add, Nat.add_zero]
    at hsize hhere
  have hfits : (older ++ Entry.header link true name).length + draft.2.size (Plain.instr short) <
      a.dictionary.memory.size := by
    omega
  subst hshort
  obtain ⟨a', hrun, hcode, hext⟩ := ha.code.run_compileAll hwords hread hfits
  refine ⟨draft, a', hread, hrun, ha.extends hext hcode, hext.options, ?_⟩
  rw [hext.size]
  simpa using hfits

end ForthAssembler
