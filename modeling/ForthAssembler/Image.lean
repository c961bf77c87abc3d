import ForthAssembler.Dictionary.Entry
import ForthAssembler.Error

/-! Saved images: three header cells (signature, offset of the latest entry, length), then the
bytes of the image. -/
namespace ForthAssembler

structure Image where
  autorun : Bool
  latest : Link
  bytes : List UInt8
  deriving DecidableEq, Repr

namespace Image

/-- `N4` in ASCII. -/
def signature : Nat := 0x4e34

/-- `N4` with the top bit of both bytes set. -/
def autorunSignature : Nat := 0xceb4

def encode (image : Image) : List UInt8 :=
  Cell.bytes (if image.autorun then autorunSignature else signature) ++
    Cell.bytes image.latest.cell ++ Cell.bytes image.bytes.length ++ image.bytes

def autorun? (cell : Nat) : Option Bool :=
  if cell = signature then some false else if cell = autorunSignature then some true else none

/-- Reads a saved image that is to fit `capacity` bytes. -/
def decode (capacity : Nat) : List UInt8 → Except ImageFault Image
  | s₁ :: s₀ :: l₁ :: l₀ :: h₁ :: h₀ :: bytes =>
    match autorun? (Cell.value s₁ s₀) with
    | none => .error .badSignature
    | some autorun =>
      let latest := Link.ofCell (Cell.value l₁ l₀)
      let here := Cell.value h₁ h₀
      if capacity < here then .error .tooLarge
      else if latest.any (here ≤ ·) then .error .latestOutside
      else if bytes.length ≠ here then .error .lengthMismatch
      else .ok { autorun, latest, bytes }
  | _ => .error .truncatedHeader

end Image
end ForthAssembler
