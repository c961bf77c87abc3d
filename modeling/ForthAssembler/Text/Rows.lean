/-! Breaking a list into rows. -/
namespace ForthAssembler.Text
variable {α : Type}

/-- Rows of `width` elements, the last one with what is left. A width of zero counts as one. -/
def rows (width : Nat) : List α → List (List α)
  | [] => []
  | x :: xs => (x :: xs.take (width - 1)) :: rows width (xs.drop (width - 1))
termination_by xs => xs.length
decreasing_by
  simp only [List.length_drop, List.length_cons]
  omega

end ForthAssembler.Text
