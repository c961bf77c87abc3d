import ForthAssembler.Proofs.Assembler.Defining

/-! Variables push the address of a cell of their own, and constants their value. -/
namespace ForthAssembler
open Instr Text

namespace Instr

/-- The number that a literal pushes. -/
def pushed? : Instr → Option Int
  | literal value => some value.toInt
  | short value => some value.toNat
  | _ => none

def isShort : Instr → Bool
  | short _ => true
  | _ => false

end Instr

/-- The newest word stands at an offset and is visible. Its code is a literal and a return, with
nothing but the data from there to the cursor. -/
def Assembler.Pushes (a : Assembler) (address : Nat) (name : String) (number : Int) (short : Prop)
    (data : List UInt8) : Prop :=
  ∃ entry, a.dictionary.latest? = some entry ∧ entry.address = address ∧
    entry.name = name ∧ entry.hidden = false ∧
    ∃ instr rest, decode? (a.dictionary.memory.range entry.code a.here) = some (instr, rest) ∧
      instr.pushed? = some number ∧ (instr.isShort ↔ short) ∧ decode? rest = some (.ret, data)

namespace Assembler
variable {a a' : Assembler} {name : String}

/-- A word that is added with a literal and a return pushes the number of the literal. -/
theorem Adds.pushes {i : Instr} {data : List UInt8} {address : Nat} {number : Int} {short : Prop}
    (h : Adds a name [i, .ret] data address a') (hnumber : i.pushed? = some number)
    (hshort : i.isShort ↔ short) : a'.Pushes address name number short data := by
  have halloc := h.added.allocated
  have hlength := a.dictionary.memory.length_allocated
  have hcode := Entry.code_read_header halloc h.added.legal
  have hrange : a'.dictionary.memory.range
      (Entry.read a'.dictionary.memory a.dictionary.memory.allocated.length).code a'.here =
        i.bytes ++ (Instr.ret.bytes ++ data) := by
    have hle : a'.dictionary.memory.allocated.length ≤ a'.here :=
      Nat.le_of_eq (Memory.length_allocated _)
    rw [hcode, Memory.range_eq, List.take_of_length_le hle, halloc]
    simp
  refine ⟨Entry.read a'.dictionary.memory a.dictionary.memory.allocated.length, ?_, ?_, ?_, ?_,
    i, Instr.ret.bytes ++ data, ?_, hnumber, hshort,
    decode?_bytes (show Instr.ret.Encodable from trivial) data⟩
  · rw [Dictionary.latest?, h.added.head]
    rfl
  · rw [h.address]
    exact hlength
  · rw [Entry.read_header halloc h.added.legal]
  · rw [Entry.read_header halloc h.added.legal]
    exact Tag.isHidden_ofName h.added.legal.2
  · rw [hrange]
    exact decode?_bytes (h.encodable i List.mem_cons_self) _

theorem Adds.here_eq {code : List Instr} {data : List UInt8} {address : Nat}
    (h : Adds a name code data address a') :
    a'.here = a.here + Entry.nameOffset + (utf8 name).length + sizeAll code + data.length := by
  have hlength := congrArg List.length h.added.allocated
  simp only [List.length_append, Entry.length_header, length_bytesAll,
    Memory.length_allocated] at hlength
  simp only [Assembler.here, Dictionary.here]
  omega

theorem Adds.accepts {code : List Instr} {data : List UInt8} {address : Nat}
    (h : Adds a name code data address a') : a.Accepts name (sizeAll code + data.length) := by
  refine ⟨h.closed, h.added.legal, ?_⟩
  have hhere := a.dictionary.memory.here_add_unused
  have hhere' := a'.dictionary.memory.here_add_unused
  have heq := h.here_eq
  rw [h.keeps.size] at hhere'
  simp only [Assembler.here, Dictionary.here] at heq
  omega

end Assembler

namespace Action
variable (short : Bool)

theorem size_literalInstr (value : Int16) : (literalInstr short value).size =
    if short ∧ 0 ≤ value.toInt ∧ value.toInt ≤ maxShort then 1 else 3 := by
  unfold literalInstr
  split <;> rfl

theorem isShort_literalInstr (value : Int16) : (literalInstr short value).isShort ↔
    short ∧ 0 ≤ value.toInt ∧ value.toInt ≤ maxShort := by
  unfold literalInstr
  split <;> simp_all [isShort]

theorem pushed?_literalInstr (value : Int16) :
    (literalInstr short value).pushed? = some value.toInt := by
  unfold literalInstr
  split
  · rename_i hvalue
    obtain ⟨-, hge, hle⟩ := hvalue
    simp only [maxShort] at hle
    simp only [pushed?, UInt8.toNat_ofNat', Option.some.injEq]
    omega
  · rfl

theorem size_cellInstr (code : Nat) :
    (cellInstr short code).size = if short ∧ code + 2 ≤ maxShort then 1 else 3 := by
  unfold cellInstr
  split <;> rfl

/-- The long form is taken only where the cell would be out of reach of either form. -/
theorem isShort_cellInstr (code : Nat) : (cellInstr short code).isShort ↔
    short ∧ code + (cellInstr short code).size + 1 ≤ maxShort := by
  unfold cellInstr
  split
  · simp_all [isShort, Instr.size]
  · rename_i hlong
    simp only [isShort, Instr.size, Bool.false_eq_true, false_iff]
    intro hreach
    exact hlong ⟨hreach.1, by omega⟩

/-- The cell stands behind the literal and the return. -/
theorem pushed?_cellInstr {code : Nat} (h : code + 4 < 32768) :
    (cellInstr short code).pushed? =
      some ((code + (cellInstr short code).size + 1 : Nat) : Int) := by
  unfold cellInstr
  split
  · rename_i hshort
    obtain ⟨-, hle⟩ := hshort
    simp only [maxShort] at hle
    simp only [pushed?, Instr.size, UInt8.toNat_ofNat', Option.some.injEq]
    omega
  · have hcell : (Cell.signed (code + 4)).toInt = (code + 4 : Nat) := Int16.toInt_ofNat_of_lt h
    rw [pushed?, hcell]
    rfl

/-- A variable is accepted if its name is legal and there is space for it, and pushes the address of
the zero cell at its end. A constant is accepted likewise, and pushes its value. What is refused
changes nothing. -/
theorem data_words_push (a : Assembler) (name : String) (value : Int16) :
    let short := a.options.shortLiterals
    let code := a.here + Entry.nameOffset + (utf8 name).length
    let cellSpace := (if short ∧ code + 2 ≤ maxShort then 1 else 3) + 1 + 2
    let space := (if short ∧ 0 ≤ value.toInt ∧ value.toInt ≤ maxShort then 1 else 3) + 1
    (defineVariable name).Ensures
      (fun address a' => a.Accepts name cellSpace ∧ ∃ cell, cell + 2 = a'.here ∧ code < cell ∧
        a'.Pushes address name cell (short ∧ cell ≤ maxShort) [0, 0])
      (fun _ a' => a' = a ∧ ¬ a.Accepts name cellSpace) a ∧
    (defineConstant name value).Ensures
      (fun address a' => a.Accepts name space ∧ a'.Pushes address name value.toInt
        (short ∧ 0 ≤ value.toInt ∧ value.toInt ≤ maxShort) [])
      (fun _ a' => a' = a ∧ ¬ a.Accepts name space) a := by
  intro short code cellSpace space
  have hcellSpace : sizeAll (variableCode short a.here name) + 2 = cellSpace := by
    simp [variableCode, size_cellInstr, cellSpace, code]
  have hspace : sizeAll (constantCode short value) = space := by
    simp [constantCode, size_literalInstr, space]
  constructor
  · rw [← hcellSpace]
    apply (ensures_defineVariable_code name).mono ?_ fun _ _ hrefused => ⟨hrefused.1, hrefused.2.2⟩
    intro address a' hadds
    refine ⟨hadds.accepts, code + (cellInstr short code).size + 1, ?_, by omega, ?_⟩
    · rw [hadds.here_eq]
      simp [variableCode, Cell.bytes, code, short, Nat.add_assoc]
    · have hlimit : a'.here ≤ maxCapacity :=
        Nat.le_trans a'.dictionary.memory.here_le a'.dictionary.memory.size_le
      rw [hadds.here_eq] at hlimit
      simp only [maxCapacity, maxTarget] at hlimit
      exact hadds.pushes (pushed?_cellInstr short (by omega)) (isShort_cellInstr short code)
  · rw [← hspace]
    apply (ensures_defineConstant_code name value).mono ?_ fun _ _ hrefused =>
      ⟨hrefused.1, hrefused.2.2⟩
    intro address a' hadds
    exact ⟨hadds.accepts,
      hadds.pushes (pushed?_literalInstr short value) (isShort_literalInstr short value)⟩

end Action
end ForthAssembler
