import ForthAssembler.Instr.Codec
import ForthAssembler.Instr.Mnemonic
import ForthAssembler.Text.Utf8

/-! Listings of packed code. -/
namespace ForthAssembler
open Text

def Instr.label : Instr → String
  | call target => "CALL " ++ hexPadded 3 target
  | jumpZero target => "CDJ " ++ hexPadded 3 target
  | jump target => "UDJ " ++ hexPadded 3 target
  | ret => "RET"
  | primitive id => primitiveLabel id
  | literal value => "LIT " ++ toString value
  | short value => "#" ++ toString value
  | text bytes => ".\" " ++ ofUtf8Lossy bytes ++ "\""
  | forLoop => "FOR"
  | next => "NEXT"
  | index => "I"
  | leave => "BRK"

/-- One line of a listing; only a cut-off rest of the code has no instruction. -/
structure Line where
  address : Nat
  bytes : List UInt8
  instr : Option Instr
  deriving DecidableEq, Repr

namespace Line

/-- The address, at most three of the bytes, and the instruction. -/
def render (line : Line) : String :=
  hexPadded 3 line.address ++ ": " ++ padRight 9 (hexBytes (line.bytes.take 3)) ++
    (line.instr.map Instr.label).getD "??"

end Line

/-- The instructions of `bytes`, which start at offset `base`. -/
def disassemble (base : Nat) (bytes : List UInt8) : List Line :=
  match bytes with
  | [] => []
  | first :: rest =>
    match _h : Instr.decode? (first :: rest) with
    | none => [⟨base, first :: rest, none⟩]
    | some (instr, after) =>
      ⟨base, (first :: rest).take instr.size, some instr⟩ :: disassemble (base + instr.size) after
termination_by bytes.length
decreasing_by
  have := Instr.length_of_decode? _h
  have := instr.size_pos
  omega

end ForthAssembler
