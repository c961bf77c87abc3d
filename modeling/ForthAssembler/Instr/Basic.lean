/-! Instructions of the packed code.

A first byte `0nnnnnnn` is a short literal, `10pppppp` one of 64 operations, `1100`, `1101` and
`1110` start the two bytes of a branch with a twelve-bit target, and `1111` returns. -/
namespace ForthAssembler

/-- The operations at the top of the operation space, which the compiler treats on its own. -/
inductive Extended
  | text
  | leave
  | index
  | forLoop
  | next
  | literal
  deriving DecidableEq, Repr

namespace Extended

def id : Extended → UInt8
  | text => 58
  | leave => 59
  | index => 60
  | forLoop => 61
  | next => 62
  | literal => 63

def ofId? (id : UInt8) : Option Extended :=
  [text, leave, index, forLoop, next, literal].find? fun op => op.id == id

theorem ofId?_id (op : Extended) : ofId? op.id = some op := by
  cases op <;> decide

theorem ofId?_eq_some_iff {id : UInt8} {op : Extended} : ofId? id = some op ↔ op.id = id := by
  constructor
  · intro h
    simpa using List.find?_some h
  · rintro rfl
    exact ofId?_id op

end Extended

/-- One instruction. `jumpZero` jumps when the top of the stack is zero, `leave` drops the index
of the loop that `forLoop` opened. -/
inductive Instr
  | call (target : Nat)
  | jumpZero (target : Nat)
  | jump (target : Nat)
  | ret
  | primitive (id : UInt8)
  | literal (value : Int16)
  | short (value : UInt8)
  | text (bytes : List UInt8)
  | forLoop
  | next
  | index
  | leave
  deriving DecidableEq, Repr

namespace Instr

def maxTarget : Nat := 0xfff

def maxShort : Nat := 0x7f

def maxText : Nat := 255

def size : Instr → Nat
  | call _ | jumpZero _ | jump _ => 2
  | literal _ => 3
  | text bytes => 2 + bytes.length
  | ret | primitive _ | short _ | forLoop | next | index | leave => 1

theorem size_pos (instr : Instr) : 0 < instr.size := by
  cases instr <;> simp only [size] <;> omega

end Instr
end ForthAssembler
