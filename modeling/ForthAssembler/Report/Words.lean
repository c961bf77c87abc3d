import ForthAssembler.Dictionary.Basic
import ForthAssembler.Text.Rows
import ForthAssembler.Token.Basic

/-! Listing the vocabulary, and the state of allocation. -/
namespace ForthAssembler
open Text

structure Status where
  here : Nat
  last : Link
  capacity : Nat
  unused : Nat
  deriving DecidableEq, Repr

def Status.render (status : Status) : String :=
  "here=" ++ hexPadded 3 status.here ++ " last=" ++ hexPadded 3 status.last.cell ++
    " capacity=" ++ hexPadded 3 status.capacity ++ " unused=" ++ hexPadded 3 status.unused

namespace Dictionary

def status (d : Dictionary) : Status where
  here := d.here
  last := d.head
  capacity := d.memory.size
  unused := d.memory.unused

/-- User words, the most recent first, and then the built-in ones, in rows. With `offsets` each
user word comes after the offset of its entry, and rows are half as long. -/
def vocabulary (d : Dictionary) (offsets : Bool) : String :=
  let user := d.visible.map fun entry =>
    if offsets then hexPadded 3 entry.address ++ ":" ++ entry.name else entry.name
  let rows := rows (if offsets then 8 else 16) (user ++ Mnemonic.builtins)
  "\n".intercalate (rows.map " ".intercalate)

end Dictionary
end ForthAssembler
