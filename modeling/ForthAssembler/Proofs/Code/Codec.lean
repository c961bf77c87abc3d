import ForthAssembler.Proofs.Code.Bytes

/-! What bytes stand for an instruction: each has one code, no code begins with another, and only a
return is also read from bytes that no instruction is encoded to. -/
namespace ForthAssembler

/-- The extended operations take up the top of the operation space. -/
theorem Extended.exists_id {id : UInt8} (h : 58 ≤ id.toNat) (h' : id.toNat < 64) :
    ∃ op : Extended, op.id = id := by
  have hcases : id.toNat = 58 ∨ id.toNat = 59 ∨ id.toNat = 60 ∨ id.toNat = 61 ∨ id.toNat = 62 ∨
      id.toNat = 63 := by omega
  rcases hcases with h | h | h | h | h | h
  · exact ⟨.text, UInt8.toNat_inj.mp h.symm⟩
  · exact ⟨.leave, UInt8.toNat_inj.mp h.symm⟩
  · exact ⟨.index, UInt8.toNat_inj.mp h.symm⟩
  · exact ⟨.forLoop, UInt8.toNat_inj.mp h.symm⟩
  · exact ⟨.next, UInt8.toNat_inj.mp h.symm⟩
  · exact ⟨.literal, UInt8.toNat_inj.mp h.symm⟩

namespace Instr
variable {bytes rest more : List UInt8} {instr : Instr}

/-- The operation bytes are those of the encodable instructions. -/
theorem bytes_of_decodeOperation? {id : UInt8} (hid : id.toNat < 64)
    (h : decodeOperation? id bytes = some (instr, rest)) :
    instr.Encodable ∧ operation id :: bytes = instr.bytes ++ rest := by
  unfold decodeOperation? at h
  split at h
  case h_1 hnone =>
    cases h
    have hsmall : id.toNat < 58 := by
      refine Nat.lt_of_not_le fun hlarge => ?_
      obtain ⟨op, rfl⟩ := Extended.exists_id hlarge hid
      simp [Extended.ofId?_id] at hnone
    exact ⟨UInt8.lt_iff_toNat_lt.mpr hsmall, rfl⟩
  case h_2 hop =>
    obtain rfl := Extended.ofId?_eq_some_iff.mp hop
    split at h <;> cases h
    refine ⟨trivial, ?_⟩
    simp [Instr.bytes, Cell.unsigned_signed (Cell.value_lt _ _), Cell.bytes_value]
  case h_3 hop =>
    obtain rfl := Extended.ofId?_eq_some_iff.mp hop
    split at h
    · split at h <;> cases h
      rename_i length later hlength
      have htake : (later.take length.toNat).length = length.toNat := by
        rw [List.length_take]
        omega
      have hlt := length.toNat_lt
      refine ⟨?_, ?_⟩
      · simp only [Encodable, htake, maxText]
        omega
      · simp [Instr.bytes, htake]
    · cases h
  all_goals
    rename_i hop
    obtain rfl := Extended.ofId?_eq_some_iff.mp hop
    cases h
    exact ⟨trivial, rfl⟩

/-- A cell that starts with a branch opcode holds that opcode and the target. -/
theorem bytes_branchOf {first low : UInt8} (hlow : callOpcode ≤ first) (hhigh : first < retOpcode) :
    (branchOf first (Cell.value first low % (maxTarget + 1))).Encodable ∧
      (branchOf first (Cell.value first low % (maxTarget + 1))).bytes = [first, low] := by
  have hl : 192 ≤ first.toNat := UInt8.le_iff_toNat_le.mp hlow
  have hh : first.toNat < 240 := UInt8.lt_iff_toNat_lt.mp hhigh
  have hlt := low.toNat_lt
  have htarget : Cell.value first low % (maxTarget + 1) ≤ maxTarget :=
    Nat.le_of_lt_succ (Nat.mod_lt _ (Nat.succ_pos _))
  have hcell (opcode : UInt8) (h₀ : opcode.toNat ≤ first.toNat)
      (h₁ : first.toNat < opcode.toNat + 16) (hfree : opcode.toNat % 16 = 0) :
      Cell.bytes (opcode.toNat * 256 + Cell.value first low % (maxTarget + 1)) = [first, low] := by
    have hword : opcode.toNat * 256 + Cell.value first low % (maxTarget + 1) =
        Cell.value first low := by
      simp only [Cell.value, maxTarget]
      omega
    rw [hword, Cell.bytes_value]
  unfold branchOf
  split
  · rename_i h
    have h := UInt8.lt_iff_toNat_lt.mp h
    exact ⟨htarget, hcell callOpcode hl h (by decide)⟩
  split
  · rename_i h h'
    have h := Nat.le_of_not_lt (mt UInt8.lt_iff_toNat_lt.mpr h)
    have h' := UInt8.lt_iff_toNat_lt.mp h'
    exact ⟨htarget, hcell jumpZeroOpcode h h' (by decide)⟩
  · rename_i h
    have h := Nat.le_of_not_lt (mt UInt8.lt_iff_toNat_lt.mpr h)
    exact ⟨htarget, hcell jumpOpcode h hh (by decide)⟩

theorem decode?_of_retOpcode_le {first : UInt8} (h : retOpcode ≤ first) (rest : List UInt8) :
    decode? (first :: rest) = some (ret, rest) := by
  have hlow (bound : UInt8) (hbound : bound ≤ retOpcode) : ¬ first < bound :=
    UInt8.not_lt.mpr (UInt8.le_trans hbound h)
  simp only [decode?, hlow 0x80 (by decide), hlow callOpcode (by decide),
    hlow retOpcode (by decide), if_false]

/-- What is read is encodable, and stands there as it is encoded, unless it is a return. -/
theorem bytes_of_decode? (h : decode? bytes = some (instr, rest)) :
    instr.Encodable ∧ (bytes = instr.bytes ++ rest ∨
      ∃ first, bytes = first :: rest ∧ retOpcode < first ∧ instr = ret) := by
  cases bytes with
  | nil => cases h
  | cons first bytes =>
    by_cases hret : retOpcode ≤ first
    · rw [decode?_of_retOpcode_le hret] at h
      cases h
      refine ⟨trivial, ?_⟩
      rcases UInt8.le_iff_lt_or_eq.mp hret with hlt | rfl
      · exact .inr ⟨first, rfl, hlt, rfl⟩
      · exact .inl rfl
    have hret : first < retOpcode := UInt8.not_le.mp hret
    simp only [decode?] at h
    split at h
    · rename_i hshort
      cases h
      exact ⟨Nat.le_of_lt_succ (UInt8.lt_iff_toNat_lt.mp hshort), .inl rfl⟩
    rename_i hshort
    have hshort : 0x80 ≤ first := UInt8.not_lt.mp hshort
    split at h
    · rename_i hcall
      have hcall : first.toNat < 192 := UInt8.lt_iff_toNat_lt.mp hcall
      have hid : (first - 0x80).toNat = first.toNat - 128 := UInt8.toNat_sub_of_le _ _ hshort
      have hfirst : operation (first - 0x80) = first := by
        rw [operation, UInt8.add_comm, UInt8.sub_add_cancel]
      have hop := bytes_of_decodeOperation? (by omega) h
      rw [hfirst] at hop
      exact ⟨hop.1, .inl hop.2⟩
    rename_i hcall
    split at h <;> cases h
    obtain ⟨hencodable, hbytes⟩ := bytes_branchOf (UInt8.not_lt.mp hcall) hret
    exact ⟨hencodable, .inl (by rw [hbytes]; rfl)⟩

/-- No instruction's code is the start of another's. -/
theorem eq_of_bytes_prefix {other : Instr} (h : instr.Encodable) (hother : other.Encodable)
    (hstart : instr.bytes <+: other.bytes) : other = instr := by
  obtain ⟨rest, hrest⟩ := hstart
  have hread := decode?_bytes hother []
  rw [List.append_nil, ← hrest, decode?_bytes h rest] at hread
  cases hread
  rfl

/-- Further bytes do not change what is read. -/
theorem decode?_append (h : decode? bytes = some (instr, rest)) (more : List UInt8) :
    decode? (bytes ++ more) = some (instr, rest ++ more) := by
  obtain ⟨hencodable, rfl | ⟨first, rfl, hret, rfl⟩⟩ := bytes_of_decode? h
  · rw [List.append_assoc, decode?_bytes hencodable]
  · exact decode?_of_retOpcode_le (UInt8.le_of_lt hret) _

/-- An instruction is read from any bytes that hold all of it. -/
theorem decode?_ne_none_of_append (h : decode? (bytes ++ more) = some (instr, rest))
    (hsize : instr.size ≤ bytes.length) : decode? bytes ≠ none := by
  obtain ⟨hencodable, hbytes | ⟨first, hbytes, hret, rfl⟩⟩ := bytes_of_decode? h
  · have hcode : instr.bytes <+: bytes := by
      have hwhole : instr.bytes <+: bytes ++ more := ⟨rest, hbytes.symm⟩
      refine List.prefix_of_prefix_length_le hwhole (List.prefix_append _ _) ?_
      rwa [length_bytes]
    obtain ⟨later, rfl⟩ := hcode
    simp [decode?_bytes hencodable]
  · cases bytes with
    | nil => simp [size] at hsize
    | cons b bytes =>
      cases hbytes
      simp [decode?_of_retOpcode_le (UInt8.le_of_lt hret)]

/-- Behind the first byte no instruction has more than 256. -/
theorem decode?_ne_none_of_length {first : UInt8} (h : 256 ≤ rest.length) :
    decode? (first :: rest) ≠ none := by
  obtain ⟨b₁, b₂, later, rfl⟩ : ∃ b₁ b₂ later, rest = b₁ :: b₂ :: later := by
    match rest, h with
    | b₁ :: b₂ :: later, _ => exact ⟨b₁, b₂, later, rfl⟩
  have hlength : b₁.toNat ≤ (b₂ :: later).length := by
    have := b₁.toNat_lt
    rw [List.length_cons] at h
    omega
  rw [List.length_cons] at hlength
  simp only [decode?, decodeOperation?, List.length_cons, hlength, if_true]
  split
  · simp
  split
  · split <;> simp
  · split <;> simp

theorem decode?_eq_none_iff : decode? bytes = none ↔ bytes = [] ∨
    ∃ more instr rest, more ≠ [] ∧ decode? (bytes ++ more) = some (instr, rest) ∧
      bytes.length < instr.size := by
  constructor
  · intro hnone
    cases bytes with
    | nil => exact .inl rfl
    | cons first bytes =>
      right
      let more : List UInt8 := List.replicate 256 0
      have hlength : more.length = 256 := List.length_replicate
      have hmore : more ≠ [] := List.ne_nil_of_length_pos (by omega)
      have hlong : decode? (first :: (bytes ++ more)) ≠ none :=
        decode?_ne_none_of_length (by rw [List.length_append]; omega)
      obtain ⟨⟨instr, rest⟩, hsome⟩ := Option.ne_none_iff_exists'.mp hlong
      refine ⟨more, instr, rest, hmore, hsome, Nat.lt_of_not_le fun hsize => ?_⟩
      exact decode?_ne_none_of_append hsome hsize hnone
  · rintro (rfl | ⟨more, instr, rest, -, hsome, hlt⟩)
    · rfl
    · cases hread : decode? bytes with
      | none => rfl
      | some read =>
        have happend := decode?_append hread more
        have hlength := length_of_decode? hread
        rw [hsome] at happend
        cases happend
        omega

/-- The bytes at a position determine the instruction there and its size, and the other way round:
an instruction that fits has its code, which is read back whatever follows and is the start of no
other one's; what is read was encoded, but for the further bytes of a return; and nothing is read
only where an instruction is cut off. -/
theorem codec_inverse (instr : Instr) (bytes : List UInt8) :
    ((∃ code, encode instr = .ok code) ↔ instr.Encodable) ∧
    (∀ code, encode instr = .ok code →
      code.length = instr.size ∧ (∀ rest, decode? (code ++ rest) = some (instr, rest)) ∧
      ∀ other longer, encode other = .ok longer → code <+: longer → other = instr) ∧
    (∀ rest, decode? bytes = some (instr, rest) →
      1 ≤ instr.size ∧ instr.size ≤ bytes.length ∧ rest = bytes.drop instr.size ∧
      (encode instr = .ok (bytes.take instr.size) ∨
        instr = ret ∧ ∃ first, bytes = first :: rest ∧ retOpcode < first)) ∧
    (∀ first, retOpcode < first → decode? (first :: bytes) = some (ret, bytes)) ∧
    (decode? bytes = none ↔ bytes = [] ∨
      ∃ more other rest, more ≠ [] ∧ decode? (bytes ++ more) = some (other, rest) ∧
        bytes.length < other.size) := by
  refine ⟨?_, ?_, ?_, fun first h => ?_, decode?_eq_none_iff⟩
  · simp [encode_eq_ok_iff]
  · intro code h
    obtain ⟨hencodable, rfl⟩ := encode_eq_ok_iff.mp h
    refine ⟨length_bytes instr, decode?_bytes hencodable, fun other longer hlonger hstart => ?_⟩
    obtain ⟨hother, rfl⟩ := encode_eq_ok_iff.mp hlonger
    exact eq_of_bytes_prefix hencodable hother hstart
  · intro rest h
    have hsize := instr.size_pos
    have hlength := length_of_decode? h
    obtain ⟨hencodable, rfl | ⟨first, rfl, hret, rfl⟩⟩ := bytes_of_decode? h
    · have htake : (instr.bytes ++ rest).take instr.size = instr.bytes := by
        rw [← length_bytes, List.take_left]
      have hdrop : (instr.bytes ++ rest).drop instr.size = rest := by
        rw [← length_bytes, List.drop_left]
      refine ⟨by omega, by omega, hdrop.symm, .inl ?_⟩
      rw [htake]
      exact encode_of_encodable hencodable
    · exact ⟨by omega, by omega, rfl, .inr ⟨rfl, first, rfl, hret⟩⟩
  · exact decode?_of_retOpcode_le (UInt8.le_of_lt h) bytes

/-- A text is read back before a return, and not when its last byte is missing. -/
theorem codec_inverse_text :
    decode? ([0xba, 2, 0x68, 0x69] ++ [0xf3]) = some (text [0x68, 0x69], [0xf3]) ∧
      decode? [0xba, 2, 0x68] = none := by
  have hcode := codec_inverse (text [0x68, 0x69]) [0xba, 2, 0x68]
  constructor
  · exact (hcode.2.1 [0xba, 2, 0x68, 0x69] rfl).2.1 [0xf3]
  · apply hcode.2.2.2.2.mpr
    exact .inr ⟨[0x69], text [0x68, 0x69], [], by decide, rfl, by decide⟩

end Instr
end ForthAssembler
