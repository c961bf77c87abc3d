import ForthAssembler.Memory.Basic

/-! What each operation does to the allocated bytes. -/
namespace ForthAssembler.Memory

theorem toList_overwrite {buffer : Array UInt8} {start : Nat} {bytes : List UInt8}
    (h : start + bytes.length ≤ buffer.size) :
    (overwrite buffer start bytes).toList =
      buffer.toList.take start ++ bytes ++ buffer.toList.drop (start + bytes.length) := by
  induction bytes generalizing buffer start with
  | nil => simp [overwrite]
  | cons b bytes ih =>
    have hlt : start < buffer.toList.length := by
      rw [Array.length_toList]
      simp only [List.length_cons] at h
      omega
    rw [overwrite, ih (by simp only [Array.size_setIfInBounds, List.length_cons] at h ⊢; omega),
      Array.toList_setIfInBounds]
    have hdrop : start + 1 + bytes.length = start + (bytes.length + 1) := by omega
    rw [List.drop_set_of_lt (by omega), List.length_cons, hdrop, List.take_set,
      List.take_add_one, List.getElem?_eq_getElem hlt, List.set_append]
    have hlen : (buffer.toList.take start).length = start := by simp; omega
    simp [hlen]

theorem length_allocated (m : Memory) : m.allocated.length = m.here := by
  have := m.here_le
  simp [allocated]
  omega

theorem length_allocated_le (m : Memory) : m.allocated.length ≤ maxCapacity := by
  rw [length_allocated]
  exact Nat.le_trans m.here_le m.size_le

theorem here_add_unused (m : Memory) : m.here + m.unused = m.size := by
  have := m.here_le
  simp only [unused, size]
  omega

theorem allocated_blank (capacity : Capacity) : (blank capacity).allocated = [] := by
  simp [blank, allocated]

theorem allocated_clear (m : Memory) : m.clear.allocated = [] := by
  simp [clear, allocated]

theorem get8?_eq (m : Memory) (address : Nat) : m.get8? address = m.allocated[address]? := by
  unfold get8? allocated
  split
  · rw [List.getElem?_take_of_lt ‹_›, Array.getElem?_toList]
  · rw [List.getElem?_take_eq_none (by omega)]

theorem range_eq (m : Memory) (start stop : Nat) :
    m.range start stop = (m.allocated.take stop).drop start := by
  rw [range, allocated, List.take_take, Array.toList_extract, List.extract_eq_drop_take']

theorem allocated_write {m : Memory} {start : Nat} {bytes : List UInt8}
    (h : start + bytes.length ≤ m.here) :
    (m.write start bytes).allocated =
      m.allocated.take start ++ bytes ++ m.allocated.drop (start + bytes.length) := by
  have hle := m.here_le
  simp only [allocated, write, toList_overwrite (Nat.le_trans h hle), List.take_take]
  rw [List.take_append, List.take_append, List.length_append, List.length_take,
    Array.length_toList, List.take_take, List.drop_take]
  rw [List.take_of_length_le (l := bytes) (by omega)]
  congr 3 <;> omega

theorem push?_eq_none_iff (m : Memory) (bytes : List UInt8) :
    m.push? bytes = none ↔ m.unused < bytes.length := by
  have := m.here_le
  simp only [push?, alloc?, unused, size]
  split <;> simp <;> omega

/-- Pushing appends to the allocated bytes and gives the old cursor. -/
theorem of_push?_eq_some {m m' : Memory} {bytes : List UInt8} {start : Nat}
    (h : m.push? bytes = some (start, m')) :
    start = m.here ∧ m'.allocated = m.allocated ++ bytes ∧ m'.size = m.size := by
  simp only [push?, alloc?] at h
  split at h
  · rename_i hfit
    simp only [Option.bind_eq_bind, Option.bind_some, Option.some.injEq, Prod.mk.injEq] at h
    obtain ⟨rfl, rfl⟩ := h
    refine ⟨rfl, ?_, ?_⟩
    · simp only [allocated, write, toList_overwrite hfit]
      have hlen : (m.buffer.toList.take m.here ++ bytes).length = m.here + bytes.length := by
        simp only [List.length_append, List.length_take, Array.length_toList]
        omega
      rw [List.take_append_of_le_length (by omega), List.take_of_length_le (by omega)]
    · simp [size, write, size_overwrite]
  · cases h

theorem rewind?_eq (m : Memory) (address : Nat) :
    (m.rewind? address).map (·.allocated) =
      if address ≤ m.here then some (m.allocated.take address) else none := by
  unfold rewind? dealloc?
  split
  · have : m.here - (m.here - address) = address := by omega
    simp only [Nat.sub_le, if_true, Option.map_some, allocated, this, List.take_take]
    congr 2
    omega
  · rfl

theorem set8?_eq (m : Memory) (address : Nat) (value : UInt8) :
    (m.set8? address value).map (·.allocated) =
      if address < m.here then some (m.allocated.set address value) else none := by
  simp only [set8?, isAllocated, decide_eq_true_eq]
  split
  · rename_i h
    rw [Option.map_some, allocated_write (Nat.succ_le_of_lt h),
      List.set_eq_take_append_cons_drop, if_pos (by rwa [length_allocated])]
    simp
  · rfl

theorem set16?_eq (m : Memory) (address value : Nat) :
    (m.set16? address value).map (·.allocated) =
      if address + 1 < m.here then
        some (m.allocated.take address ++ Cell.bytes value ++ m.allocated.drop (address + 2))
      else none := by
  by_cases h : address + 1 < m.here
  · have h' : address < m.here := by omega
    simp only [set16?, isAllocated, h, h', decide_true, Bool.and_self, if_true, Option.map_some]
    rw [allocated_write (by simp [Cell.bytes]; omega)]
    rfl
  · simp [set16?, isAllocated, h]

theorem restore?_eq (m : Memory) (bytes : List UInt8) :
    (m.restore? bytes).map (·.allocated) = if bytes.length ≤ m.size then some bytes else none := by
  unfold restore? size
  split <;> simp [allocated]

end ForthAssembler.Memory
