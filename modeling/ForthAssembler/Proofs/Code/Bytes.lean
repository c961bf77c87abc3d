import ForthAssembler.Instr.Listing

/-! Code as whole instructions: their bytes, and listings that read them back. -/
namespace ForthAssembler.Instr

/-- The bytes of an instruction, whether or not its fields fit. -/
def bytes : Instr → List UInt8
  | call target => Cell.bytes (callOpcode.toNat * 256 + target)
  | jumpZero target => Cell.bytes (jumpZeroOpcode.toNat * 256 + target)
  | jump target => Cell.bytes (jumpOpcode.toNat * 256 + target)
  | ret => [retOpcode]
  | primitive id => [operation id]
  | literal value => operation Extended.literal.id :: Cell.bytes (Cell.unsigned value)
  | short value => [value]
  | text bytes => operation Extended.text.id :: UInt8.ofNat bytes.length :: bytes
  | forLoop => [operation Extended.forLoop.id]
  | next => [operation Extended.next.id]
  | index => [operation Extended.index.id]
  | leave => [operation Extended.leave.id]

/-- Every field of the instruction fits. -/
def Encodable : Instr → Prop
  | call target | jumpZero target | jump target => target ≤ maxTarget
  | primitive id => id < Extended.text.id
  | short value => value.toNat ≤ maxShort
  | text bytes => bytes.length ≤ maxText
  | ret | literal _ | forLoop | next | index | leave => True

instance : DecidablePred Encodable := fun instr => by
  cases instr <;> unfold Encodable <;> infer_instance

@[simp] theorem size_jumpZero (target : Nat) : (jumpZero target).size = 2 := rfl

@[simp] theorem size_jump (target : Nat) : (jump target).size = 2 := rfl

@[simp] theorem size_forLoop : forLoop.size = 1 := rfl

@[simp] theorem size_next : next.size = 1 := rfl

@[simp] theorem size_ret : ret.size = 1 := rfl

theorem length_bytes (instr : Instr) : instr.bytes.length = instr.size := by
  cases instr <;> simp only [bytes, size, Cell.bytes, List.length_cons, List.length_nil]
  omega

theorem encode_eq_ok_iff {instr : Instr} {code : List UInt8} :
    encode instr = .ok code ↔ instr.Encodable ∧ instr.bytes = code := by
  have branch {opcode : UInt8} (hfree : opcode.toNat % 16 = 0) (target : Nat) :
      Cell.bytes <$> branchWord opcode target = .ok code ↔
        target ≤ maxTarget ∧ Cell.bytes (opcode.toNat * 256 + target) = code := by
    by_cases h : target ≤ maxTarget
    · simp [branchWord_of_le hfree h, h, Functor.map, Except.map]
    · simp [branchWord, h, Functor.map, Except.map]
  cases instr with
  | call target => exact branch (by decide) target
  | jumpZero target => exact branch (by decide) target
  | jump target => exact branch (by decide) target
  | primitive id => simp only [encode, Encodable, bytes]; split <;> simp [*]
  | short value => simp only [encode, Encodable, bytes]; split <;> simp [*]
  | text bytes => simp only [encode, Encodable, Instr.bytes]; split <;> simp [*]
  | _ => simp [encode, Encodable, bytes]

theorem encode_of_encodable {instr : Instr} (h : instr.Encodable) :
    encode instr = .ok instr.bytes :=
  encode_eq_ok_iff.mpr ⟨h, rfl⟩

theorem decode?_branch {opcode : UInt8} {target : Nat} (hfree : opcode.toNat % 16 = 0)
    (hlow : callOpcode ≤ opcode) (hhigh : opcode < retOpcode) (h : target ≤ maxTarget)
    (rest : List UInt8) :
    decode? (Cell.bytes (opcode.toNat * 256 + target) ++ rest) =
      some (branchOf opcode target, rest) := by
  have hl : 192 ≤ opcode.toNat := UInt8.le_iff_toNat_le.mp hlow
  have hh : opcode.toNat < 240 := UInt8.lt_iff_toNat_lt.mp hhigh
  simp only [maxTarget] at h
  have hfirst : (UInt8.ofNat ((opcode.toNat * 256 + target) / 256)).toNat =
      opcode.toNat + target / 256 := by
    rw [UInt8.toNat_ofNat']
    omega
  have hword := Cell.value_bytes (n := opcode.toNat * 256 + target) (by omega)
  have htarget : (opcode.toNat * 256 + target) % (maxTarget + 1) = target := by
    simp only [maxTarget]
    omega
  have hkind (bound : UInt8) (hb : bound.toNat % 16 = 0) :
      UInt8.ofNat ((opcode.toNat * 256 + target) / 256) < bound ↔ opcode < bound := by
    rw [UInt8.lt_iff_toNat_lt, UInt8.lt_iff_toNat_lt, hfirst]
    omega
  have h₁ : ¬ opcode < 0x80 := by rw [UInt8.lt_iff_toNat_lt]; simp; omega
  have h₂ : ¬ opcode < callOpcode := by rw [UInt8.not_lt]; exact hlow
  simp only [Cell.bytes, List.cons_append, List.nil_append, decode?, hkind 0x80 (by decide),
    hkind callOpcode (by decide), hkind retOpcode (by decide), h₁, h₂, hhigh, if_false, if_true,
    hword, htarget, Option.some.injEq, Prod.mk.injEq, and_true]
  simp only [branchOf, hkind jumpZeroOpcode (by decide), hkind jumpOpcode (by decide)]

theorem decode?_operation {id : UInt8} (h : id.toNat < 64) (rest : List UInt8) :
    decode? (operation id :: rest) = decodeOperation? id rest := by
  have hop : (operation id).toNat = 128 + id.toNat := by
    rw [operation, UInt8.toNat_add]
    change (128 + id.toNat) % 256 = _
    omega
  have h₁ : ¬ operation id < 0x80 := by rw [UInt8.lt_iff_toNat_lt, hop]; simp
  have h₂ : operation id < callOpcode := by
    rw [UInt8.lt_iff_toNat_lt, hop]
    exact Nat.lt_of_lt_of_eq (by omega : 128 + id.toNat < 192) rfl
  have h₃ : operation id - 0x80 = id := by
    rw [operation, UInt8.add_comm, UInt8.add_sub_cancel]
  simp only [decode?, h₁, h₂, h₃, if_false, if_true]

/-- Decoding gives back what was encoded, whatever follows. -/
theorem decode?_bytes {instr : Instr} (h : instr.Encodable) (rest : List UInt8) :
    decode? (instr.bytes ++ rest) = some (instr, rest) := by
  cases instr with
  | call target => exact decode?_branch (by decide) (by decide) (by decide) h rest
  | jumpZero target => exact decode?_branch (by decide) (by decide) (by decide) h rest
  | jump target => exact decode?_branch (by decide) (by decide) (by decide) h rest
  | primitive id =>
    have hid : id.toNat < 58 := UInt8.lt_iff_toNat_lt.mp h
    have hnone : Extended.ofId? id = none := by
      rw [Option.eq_none_iff_forall_ne_some]
      intro op hop
      have := congrArg UInt8.toNat (Extended.ofId?_eq_some_iff.mp hop)
      cases op <;> simp only [Extended.id] at this <;> simp at this <;> omega
    change decode? (operation id :: rest) = _
    simp only [decode?_operation (show id.toNat < 64 by omega), decodeOperation?, hnone]
  | literal value =>
    change decode? (operation Extended.literal.id :: (Cell.bytes (Cell.unsigned value) ++ rest)) = _
    rw [decode?_operation (by decide)]
    have hvalue := Cell.value_bytes (Cell.unsigned_lt value)
    simp only [decodeOperation?, Extended.ofId?_id, Cell.bytes, List.cons_append, List.nil_append,
      hvalue, Cell.signed_unsigned]
  | short value =>
    have hshort : value < 0x80 := by
      rw [UInt8.lt_iff_toNat_lt]
      exact Nat.lt_succ_of_le h
    simp [bytes, decode?, hshort]
  | text bytes =>
    change decode? (operation Extended.text.id :: (UInt8.ofNat bytes.length :: (bytes ++ rest))) = _
    rw [decode?_operation (by decide)]
    have hlength : (UInt8.ofNat bytes.length).toNat = bytes.length := by
      simp only [Encodable, maxText] at h
      rw [UInt8.toNat_ofNat']
      omega
    simp [decodeOperation?, Extended.ofId?_id, hlength]
  | ret => rfl
  | forLoop | next | index | leave =>
    change decode? (operation _ :: rest) = _
    rw [decode?_operation (by decide)]
    simp only [decodeOperation?, Extended.ofId?_id]

/-- The bytes of code that consists of several instructions. -/
def bytesAll (code : List Instr) : List UInt8 := code.flatMap bytes

def sizeAll : List Instr → Nat
  | [] => 0
  | instr :: code => instr.size + sizeAll code

@[simp] theorem bytesAll_nil : bytesAll [] = [] := rfl

@[simp] theorem bytesAll_cons (instr : Instr) (code : List Instr) :
    bytesAll (instr :: code) = instr.bytes ++ bytesAll code := rfl

@[simp] theorem bytesAll_append (code later : List Instr) :
    bytesAll (code ++ later) = bytesAll code ++ bytesAll later := by
  simp [bytesAll]

@[simp] theorem sizeAll_nil : sizeAll [] = 0 := rfl

@[simp] theorem sizeAll_cons (instr : Instr) (code : List Instr) :
    sizeAll (instr :: code) = instr.size + sizeAll code := rfl

@[simp] theorem sizeAll_append (code later : List Instr) :
    sizeAll (code ++ later) = sizeAll code + sizeAll later := by
  induction code with
  | nil => simp
  | cons instr code ih => simp [ih, Nat.add_assoc]

@[simp] theorem length_bytesAll (code : List Instr) : (bytesAll code).length = sizeAll code := by
  induction code with
  | nil => rfl
  | cons instr code ih => simp [ih, length_bytes]

/-- The offsets at which the instructions of code start, and the one where it ends. -/
def boundaries (base : Nat) : List Instr → List Nat
  | [] => [base]
  | instr :: code => base :: boundaries (base + instr.size) code

theorem mem_boundaries_start (base : Nat) (code : List Instr) : base ∈ boundaries base code := by
  cases code <;> simp [boundaries]

theorem forall_mem_boundaries_append {P : Nat → Prop} {base : Nat} {code later : List Instr} :
    (∀ offset ∈ boundaries base (code ++ later), P offset) ↔
      (∀ offset ∈ boundaries base code, P offset) ∧
        ∀ offset ∈ boundaries (base + sizeAll code) later, P offset := by
  induction code generalizing base with
  | nil =>
    simp only [List.nil_append, boundaries, List.forall_mem_singleton, sizeAll_nil, Nat.add_zero]
    exact ⟨fun h => ⟨h base (mem_boundaries_start base later), h⟩, fun h => h.2⟩
  | cons instr code ih =>
    simp only [List.cons_append, boundaries, List.forall_mem_cons, ih, sizeAll_cons, Nat.add_assoc,
      and_assoc]

theorem le_of_mem_boundaries {base offset : Nat} {code : List Instr}
    (h : offset ∈ boundaries base code) : offset ≤ base + sizeAll code := by
  induction code generalizing base with
  | nil => simp_all [boundaries]
  | cons instr code ih =>
    rw [sizeAll_cons]
    rcases List.mem_cons.mp h with rfl | h
    · omega
    · have := ih h
      omega

theorem encodeAll_eq_ok_iff {code : List Instr} {bytes : List UInt8} :
    encodeAll code = .ok bytes ↔ (∀ instr ∈ code, instr.Encodable) ∧ bytesAll code = bytes := by
  have hmap : ∀ parts, code.mapM encode = .ok parts ↔
      (∀ instr ∈ code, instr.Encodable) ∧ code.map Instr.bytes = parts := by
    induction code with
    | nil => simp [pure, Except.pure]
    | cons instr code ih =>
      intro parts
      simp only [List.mapM_cons, List.forall_mem_cons, List.map_cons]
      cases hi : encode instr with
      | error e =>
        have : ¬ instr.Encodable := fun h => by simp [encode_of_encodable h] at hi
        simp [this, bind, Except.bind]
      | ok b =>
        obtain ⟨he, rfl⟩ := encode_eq_ok_iff.mp hi
        cases hc : code.mapM encode with
        | error e =>
          have : ¬ ∀ instr ∈ code, instr.Encodable := fun h => by
            simpa [hc] using (ih _).mpr ⟨h, rfl⟩
          simp [he, this, bind, Except.bind]
        | ok bs =>
          obtain ⟨hall, rfl⟩ := (ih bs).mp hc
          simpa [he, bind, Except.bind, pure, Except.pure] using fun _ => hall
  simp only [encodeAll, Functor.map, Except.map]
  cases hc : code.mapM encode with
  | error e =>
    have : ¬ ∀ instr ∈ code, instr.Encodable := fun h => by simpa [hc] using (hmap _).mpr ⟨h, rfl⟩
    simp [this]
  | ok parts =>
    obtain ⟨hall, rfl⟩ := (hmap parts).mp hc
    simpa [bytesAll, List.flatMap_def] using fun _ => hall

end Instr

/-- The lines of code that starts at an offset. -/
def listing (base : Nat) : List Instr → List Line
  | [] => []
  | instr :: code => ⟨base, instr.bytes, some instr⟩ :: listing (base + instr.size) code

theorem listing_append (base : Nat) (code later : List Instr) :
    listing base (code ++ later) =
      listing base code ++ listing (base + Instr.sizeAll code) later := by
  induction code generalizing base with
  | nil => rfl
  | cons instr code ih => simp [listing, ih, Nat.add_assoc]

/-- Every line shows an instruction of the code. -/
theorem exists_instr_of_mem_listing {base : Nat} {code : List Instr} {line : Line}
    (h : line ∈ listing base code) : ∃ instr ∈ code, line.instr = some instr := by
  induction code generalizing base with
  | nil => cases h
  | cons instr code ih =>
    rcases List.mem_cons.mp h with rfl | h
    · exact ⟨instr, List.mem_cons_self, rfl⟩
    · obtain ⟨i, hi, hline⟩ := ih h
      exact ⟨i, List.mem_cons_of_mem _ hi, hline⟩

/-- Before the last instruction every offset between instructions is that of a line. -/
theorem exists_mem_listing_of_mem_boundaries {base offset : Nat} {code : List Instr} (last : Instr)
    (h : offset ∈ Instr.boundaries base code) :
    ∃ line ∈ listing base (code ++ [last]), line.address = offset := by
  induction code generalizing base with
  | nil =>
    obtain rfl := List.mem_singleton.mp h
    exact ⟨_, List.mem_cons_self, rfl⟩
  | cons instr code ih =>
    rcases List.mem_cons.mp h with rfl | h
    · exact ⟨_, List.mem_cons_self, rfl⟩
    · obtain ⟨line, hline, haddress⟩ := ih h
      exact ⟨line, List.mem_cons_of_mem _ hline, haddress⟩

/-- A listing of the bytes of several instructions shows exactly these. -/
theorem disassemble_bytesAll {code : List Instr} (h : ∀ instr ∈ code, instr.Encodable)
    (base : Nat) : disassemble base (Instr.bytesAll code) = listing base code := by
  induction code generalizing base with
  | nil => rw [Instr.bytesAll_nil, disassemble]; rfl
  | cons instr code ih =>
    obtain ⟨hi, hcode⟩ := List.forall_mem_cons.mp h
    have hdecode := Instr.decode?_bytes hi (Instr.bytesAll code)
    have htake : (instr.bytes ++ Instr.bytesAll code).take instr.size = instr.bytes := by
      rw [← Instr.length_bytes, List.take_left]
    rw [Instr.bytesAll_cons, listing, ← ih hcode]
    cases hb : instr.bytes ++ Instr.bytesAll code with
    | nil =>
      have := congrArg List.length hb
      have := instr.size_pos
      simp [Instr.length_bytes] at *
      omega
    | cons first rest =>
      rw [hb] at hdecode htake
      rw [disassemble]
      split
      · simp_all
      · simp_all

end ForthAssembler
