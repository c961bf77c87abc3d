/-! Fixed-width columns and hexadecimal text. -/
namespace ForthAssembler.Text

/-- Lower-case hexadecimal digits, without leading zeros. -/
def hex (n : Nat) : String :=
  String.ofList (Nat.toDigits 16 n)

def hexPadded (width n : Nat) : String :=
  String.ofList (List.leftpad width '0' (Nat.toDigits 16 n))

/-- A text followed by as many spaces as bring it to `width` characters. -/
def padRight (width : Nat) (text : String) : String :=
  String.ofList (List.rightpad width ' ' text.toList)

/-- Two digits a byte, separated by spaces. -/
def hexBytes (bytes : List UInt8) : String :=
  " ".intercalate (bytes.map fun b => hexPadded 2 b.toNat)

end ForthAssembler.Text
