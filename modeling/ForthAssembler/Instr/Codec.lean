import ForthAssembler.Cell
import ForthAssembler.Error
import ForthAssembler.Instr.Basic

/-! Encoding and decoding of instructions. -/
namespace ForthAssembler.Instr

def callOpcode : UInt8 := 0xc0
def jumpZeroOpcode : UInt8 := 0xd0
def jumpOpcode : UInt8 := 0xe0
def retOpcode : UInt8 := 0xf0

/-- The cell of a branch: the opcode in its upper byte, joined with the target. -/
def branchWord (opcode : UInt8) (target : Nat) : Except Error Nat :=
  if target ≤ maxTarget then .ok (opcode.toNat * 256 ||| target)
  else .error (.addressOverflow target)

/-- An opcode whose low four bits are free leaves the target whole. -/
theorem branchWord_of_le {opcode : UInt8} {target : Nat} (hfree : opcode.toNat % 16 = 0)
    (h : target ≤ maxTarget) : branchWord opcode target = .ok (opcode.toNat * 256 + target) := by
  have hlt : target < 2 ^ 12 := Nat.lt_succ_of_le h
  have hshift : opcode.toNat * 256 = (opcode.toNat / 16) <<< 12 := by
    rw [Nat.shiftLeft_eq]
    omega
  rw [branchWord, if_pos h, hshift, Nat.shiftLeft_add_eq_or_of_lt hlt]

def operation (id : UInt8) : UInt8 := 0x80 + id

def encode : Instr → Except Error (List UInt8)
  | call target => Cell.bytes <$> branchWord callOpcode target
  | jumpZero target => Cell.bytes <$> branchWord jumpZeroOpcode target
  | jump target => Cell.bytes <$> branchWord jumpOpcode target
  | ret => .ok [retOpcode]
  | primitive id =>
    if id < Extended.text.id then .ok [operation id] else .error (.fieldOverflow id.toNat)
  | literal value => .ok (operation Extended.literal.id :: Cell.bytes (Cell.unsigned value))
  | short value =>
    if value.toNat ≤ maxShort then .ok [value] else .error (.fieldOverflow value.toNat)
  | text bytes =>
    if bytes.length ≤ maxText then
      .ok (operation Extended.text.id :: UInt8.ofNat bytes.length :: bytes)
    else .error (.fieldOverflow bytes.length)
  | forLoop => .ok [operation Extended.forLoop.id]
  | next => .ok [operation Extended.next.id]
  | index => .ok [operation Extended.index.id]
  | leave => .ok [operation Extended.leave.id]

/-- The code of several instructions, or the error of the first that has none. -/
def encodeAll (instrs : List Instr) : Except Error (List UInt8) :=
  List.flatten <$> instrs.mapM encode

/-- Decodes what follows the byte of operation `id`. -/
def decodeOperation? (id : UInt8) (rest : List UInt8) : Option (Instr × List UInt8) :=
  match Extended.ofId? id with
  | none => some (primitive id, rest)
  | some .literal =>
    match rest with
    | high :: low :: rest => some (literal (Cell.signed (Cell.value high low)), rest)
    | _ => none
  | some .text =>
    match rest with
    | length :: rest =>
      if length.toNat ≤ rest.length then
        some (text (rest.take length.toNat), rest.drop length.toNat)
      else none
    | [] => none
  | some .forLoop => some (forLoop, rest)
  | some .next => some (next, rest)
  | some .index => some (index, rest)
  | some .leave => some (leave, rest)

/-- The branch that a first byte below `1111` opens. -/
def branchOf (first : UInt8) (target : Nat) : Instr :=
  if first < jumpZeroOpcode then call target
  else if first < jumpOpcode then jumpZero target
  else jump target

/-- The first instruction and the bytes after it, `none` when it is cut off. -/
def decode? : List UInt8 → Option (Instr × List UInt8)
  | [] => none
  | first :: rest =>
    if first < 0x80 then some (short first, rest)
    else if first < callOpcode then decodeOperation? (first - 0x80) rest
    else if first < retOpcode then
      match rest with
      | low :: rest => some (branchOf first (Cell.value first low % (maxTarget + 1)), rest)
      | [] => none
    else some (ret, rest)

theorem size_branchOf (first : UInt8) (target : Nat) : (branchOf first target).size = 2 := by
  unfold branchOf
  split
  · rfl
  · split <;> rfl

theorem length_of_decodeOperation? {id : UInt8} {bytes rest : List UInt8} {instr : Instr}
    (h : decodeOperation? id bytes = some (instr, rest)) :
    bytes.length + 1 = instr.size + rest.length := by
  unfold decodeOperation? at h
  split at h
  case h_2 =>
    split at h <;> simp only [Option.some.injEq, Prod.mk.injEq, reduceCtorEq] at h
    obtain ⟨rfl, rfl⟩ := h
    simp only [List.length_cons, size]
    omega
  case h_3 =>
    split at h
    · split at h <;> simp only [Option.some.injEq, Prod.mk.injEq, reduceCtorEq] at h
      obtain ⟨rfl, rfl⟩ := h
      simp only [List.length_cons, size, List.length_take, List.length_drop]
      omega
    · cases h
  all_goals
    simp only [Option.some.injEq, Prod.mk.injEq] at h
    obtain ⟨rfl, rfl⟩ := h
    simp only [size]
    omega

/-- Decoding consumes as many bytes as the instruction takes. -/
theorem length_of_decode? {bytes rest : List UInt8} {instr : Instr}
    (h : decode? bytes = some (instr, rest)) : bytes.length = instr.size + rest.length := by
  cases bytes with
  | nil => cases h
  | cons first bytes =>
    simp only [decode?] at h
    split at h
    · simp only [Option.some.injEq, Prod.mk.injEq] at h
      obtain ⟨rfl, rfl⟩ := h
      simp only [List.length_cons, size]
      omega
    split at h
    · exact length_of_decodeOperation? h
    split at h
    · split at h <;> simp only [Option.some.injEq, Prod.mk.injEq, reduceCtorEq] at h
      obtain ⟨rfl, rfl⟩ := h
      simp only [List.length_cons, size_branchOf]
      omega
    · simp only [Option.some.injEq, Prod.mk.injEq] at h
      obtain ⟨rfl, rfl⟩ := h
      simp only [List.length_cons, size]
      omega

end ForthAssembler.Instr
