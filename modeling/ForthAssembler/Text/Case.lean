/-! Comparison of names. -/
namespace ForthAssembler.Text

/-- Equality of names, up to the case of ASCII letters if `foldCase` is set. -/
def sameName (foldCase : Bool) (a b : String) : Bool :=
  if foldCase then a.toList.map Char.toLower == b.toList.map Char.toLower else a == b

theorem sameName_refl (foldCase : Bool) (a : String) : sameName foldCase a a = true := by
  cases foldCase <;> simp [sameName]

theorem sameName_comm (foldCase : Bool) (a b : String) :
    sameName foldCase a b = sameName foldCase b a := by
  cases foldCase <;> simp [sameName, Bool.beq_comm]

end ForthAssembler.Text
