import ForthAssembler.Memory.Basic
import ForthAssembler.Text.Hex
import ForthAssembler.Text.Rows

/-! Dumps of memory in hexadecimal and ASCII. -/
namespace ForthAssembler
open Text

structure DumpLine where
  address : Nat
  bytes : List UInt8
  deriving DecidableEq, Repr

namespace DumpLine

def width : Nat := 16

/-- The character of a byte without its top bit, `_` for a control character. -/
def glyph (b : UInt8) : Char :=
  let n := b.toNat % 128
  if 32 ≤ n ∧ n ≤ 126 then Char.ofNat n else '_'

def render (line : DumpLine) : String :=
  hexPadded 3 line.address ++ ": " ++ padRight (width * 3 - 1) (hexBytes line.bytes) ++ "  " ++
    String.ofList (line.bytes.map glyph)

end DumpLine

namespace Memory

/-- A dump starts and ends at multiples of this. -/
def dumpAlignment : Nat := 32

/-- The rows around `length` bytes from an offset on, as far as they are allocated. -/
def dump (m : Memory) (start length : Nat) : List DumpLine :=
  let first := start / dumpAlignment * dumpAlignment
  let stop := (start + length + dumpAlignment - 1) / dumpAlignment * dumpAlignment
  (rows DumpLine.width (m.range first stop)).mapIdx fun i bytes =>
    ⟨first + i * DumpLine.width, bytes⟩

end Memory
end ForthAssembler
