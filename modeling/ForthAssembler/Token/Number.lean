import ForthAssembler.Cell
import ForthAssembler.Text.Digits

/-! Number literals. -/
namespace ForthAssembler.Token
open Text

/-- The magnitude of a literal: digits of the radix that `#`, `$` or `%` selects, the code point
of a quoted character, or else digits of the given radix. -/
def magnitude? (radix : Nat) : List Char → Option Nat
  | '#' :: digits => natural? 10 digits
  | '$' :: digits => natural? 16 digits
  | '%' :: digits => natural? 2 digits
  | ['\x27', c, '\x27'] => some c.toNat
  | digits => natural? radix digits

/-- A literal from -32768 to 65535, as a cell. A `-` on its own is no sign. -/
def parseNumber? (radix : Nat) (text : String) : Option Int16 := do
  match text.toList with
  | '-' :: c :: rest =>
    let n ← magnitude? radix (c :: rest)
    if n ≤ 32768 then some (Cell.signed (65536 - n)) else none
  | chars =>
    let n ← magnitude? radix chars
    if n ≤ 65535 then some (Cell.signed n) else none

end ForthAssembler.Token
