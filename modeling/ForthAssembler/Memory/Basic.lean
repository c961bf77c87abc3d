import ForthAssembler.Cell
import ForthAssembler.Instr.Basic

/-! A fixed-size buffer of bytes, allocated from its start up to a cursor. -/
namespace ForthAssembler

/-- The largest buffer whose every offset fits a branch. -/
def maxCapacity : Nat := Instr.maxTarget + 1

structure Capacity where
  bytes : Nat
  pos : 0 < bytes
  le : bytes ≤ maxCapacity
  deriving DecidableEq

namespace Capacity

def ofNat? (bytes : Nat) : Option Capacity :=
  if h : 0 < bytes ∧ bytes ≤ maxCapacity then some ⟨bytes, h.1, h.2⟩ else none

theorem ofNat?_eq_some_iff {bytes : Nat} {capacity : Capacity} :
    ofNat? bytes = some capacity ↔ capacity.bytes = bytes := by
  unfold ofNat?
  constructor
  · intro h
    split at h
    · cases h
      rfl
    · cases h
  · rintro rfl
    simp [capacity.pos, capacity.le]

def standard : Capacity := ⟨1024, by decide, by decide⟩

end Capacity

/-- The bytes before `here` are allocated. Those behind it keep what was written before the cursor
moved back. -/
structure Memory where
  buffer : Array UInt8
  here : Nat
  here_le : here ≤ buffer.size
  size_le : buffer.size ≤ maxCapacity

namespace Memory

def blank (capacity : Capacity) : Memory where
  buffer := Array.replicate capacity.bytes 0
  here := 0
  here_le := Nat.zero_le _
  size_le := by simpa using capacity.le

def size (m : Memory) : Nat := m.buffer.size

def unused (m : Memory) : Nat := m.size - m.here

/-- The bytes before the cursor. -/
def allocated (m : Memory) : List UInt8 :=
  m.buffer.toList.take m.here

def isAllocated (m : Memory) (address : Nat) : Bool := address < m.here

/-- Moves the cursor past `n` more bytes, and gives the offset where they start. -/
def alloc? (m : Memory) (n : Nat) : Option (Nat × Memory) :=
  if h : m.here + n ≤ m.buffer.size then
    some (m.here, { m with here := m.here + n, here_le := h })
  else none

def dealloc? (m : Memory) (n : Nat) : Option Memory :=
  if n ≤ m.here then
    some { m with here := m.here - n, here_le := Nat.le_trans (Nat.sub_le ..) m.here_le }
  else none

def rewind? (m : Memory) (address : Nat) : Option Memory :=
  if address ≤ m.here then m.dealloc? (m.here - address) else none

def overwrite (buffer : Array UInt8) (start : Nat) : List UInt8 → Array UInt8
  | [] => buffer
  | b :: bytes => overwrite (buffer.setIfInBounds start b) (start + 1) bytes

theorem size_overwrite (buffer : Array UInt8) (start : Nat) (bytes : List UInt8) :
    (overwrite buffer start bytes).size = buffer.size := by
  induction bytes generalizing buffer start with
  | nil => rfl
  | cons b bytes ih => simp [overwrite, ih]

/-- The memory with other bytes from an offset on, its cursor unmoved. -/
def write (m : Memory) (start : Nat) (bytes : List UInt8) : Memory where
  buffer := overwrite m.buffer start bytes
  here := m.here
  here_le := by simpa [size_overwrite] using m.here_le
  size_le := by simpa [size_overwrite] using m.size_le

def push? (m : Memory) (bytes : List UInt8) : Option (Nat × Memory) := do
  let (start, grown) ← m.alloc? bytes.length
  some (start, grown.write start bytes)

def get8? (m : Memory) (address : Nat) : Option UInt8 :=
  if address < m.here then m.buffer[address]? else none

def get16? (m : Memory) (address : Nat) : Option Nat := do
  let high ← m.get8? address
  let low ← m.get8? (address + 1)
  some (Cell.value high low)

def set8? (m : Memory) (address : Nat) (value : UInt8) : Option Memory :=
  if m.isAllocated address then some (m.write address [value]) else none

def set16? (m : Memory) (address : Nat) (value : Nat) : Option Memory :=
  if m.isAllocated address && m.isAllocated (address + 1) then
    some (m.write address (Cell.bytes value))
  else none

/-- The allocated bytes from one offset up to another. -/
def range (m : Memory) (start stop : Nat) : List UInt8 :=
  (m.buffer.extract start (min stop m.here)).toList

/-- Replaces all bytes and sets the cursor behind the given ones; the rest is zero. -/
def restore? (m : Memory) (bytes : List UInt8) : Option Memory :=
  if h : bytes.length ≤ m.buffer.size then
    some {
      buffer := (bytes ++ List.replicate (m.buffer.size - bytes.length) 0).toArray
      here := bytes.length
      here_le := by simp
      size_le := by
        have := m.size_le
        simp only [List.size_toArray, List.length_append, List.length_replicate]
        omega }
  else none

def clear (m : Memory) : Memory where
  buffer := Array.replicate m.buffer.size 0
  here := 0
  here_le := Nat.zero_le _
  size_le := by simpa using m.size_le

end Memory
end ForthAssembler
