/-! Sixteen-bit cells, stored with the more significant byte first. -/
namespace ForthAssembler.Cell

/-- The two bytes of a cell, which holds a number modulo 65536. -/
def bytes (n : Nat) : List UInt8 :=
  [UInt8.ofNat (n / 256), UInt8.ofNat n]

def value (high low : UInt8) : Nat :=
  high.toNat * 256 + low.toNat

/-- A cell read as a two's complement number. -/
def signed (n : Nat) : Int16 :=
  (UInt16.ofNat n).toInt16

/-- The cell that holds a two's complement number. -/
def unsigned (n : Int16) : Nat :=
  n.toUInt16.toNat

theorem value_lt (high low : UInt8) : value high low < 65536 := by
  have := high.toNat_lt
  have := low.toNat_lt
  simp only [value]
  omega

theorem unsigned_lt (n : Int16) : unsigned n < 65536 := n.toUInt16.toNat_lt

theorem signed_unsigned (n : Int16) : signed (unsigned n) = n := by
  simp [signed, unsigned]

theorem unsigned_signed {n : Nat} (h : n < 65536) : unsigned (signed n) = n := by
  simpa [signed, unsigned] using h

theorem value_bytes {n : Nat} (h : n < 65536) :
    value (UInt8.ofNat (n / 256)) (UInt8.ofNat n) = n := by
  simp only [value, UInt8.toNat_ofNat']
  omega

theorem bytes_value (high low : UInt8) : bytes (value high low) = [high, low] := by
  have h₁ := high.toNat_lt
  have h₂ := low.toNat_lt
  have h₃ : (value high low) / 256 = high.toNat := by simp only [value]; omega
  have h₄ : UInt8.ofNat (value high low) = low := by
    apply UInt8.toNat_inj.mp
    simp only [value, UInt8.toNat_ofNat']
    omega
  simp [bytes, h₃, h₄]

end ForthAssembler.Cell
