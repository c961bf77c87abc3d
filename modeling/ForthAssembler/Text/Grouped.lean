import ForthAssembler.Text.Rows

/-! Decimal numbers with their digits in groups of three. -/
namespace ForthAssembler.Text

/-- Decimal digits, with a comma before each three that others precede. -/
def grouped (n : Nat) : String :=
  let groups := (rows 3 (Nat.toDigits 10 n).reverse).map fun group => String.ofList group.reverse
  ",".intercalate groups.reverse

end ForthAssembler.Text
