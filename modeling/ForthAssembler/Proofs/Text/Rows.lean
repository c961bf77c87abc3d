import ForthAssembler.Text.Rows

/-! Rows tile their list, and each but the last is full. -/
namespace ForthAssembler.Text
variable {α : Type} {width : Nat}

theorem rows_nil (width : Nat) : rows width ([] : List α) = [] := by
  rw [rows]

theorem rows_of_ne_nil (hwidth : 0 < width) {xs : List α} (h : xs ≠ []) :
    rows width xs = xs.take width :: rows width (xs.drop width) := by
  obtain ⟨width, rfl⟩ := Nat.exists_eq_add_one_of_ne_zero (Nat.ne_of_gt hwidth)
  cases xs with
  | nil => exact absurd rfl h
  | cons x xs => rw [rows, Nat.add_sub_cancel, List.take_succ_cons, List.drop_succ_cons]

/-- By induction on the number of the row. -/
theorem getElem?_rows (hwidth : 0 < width) (xs : List α) (i : Nat) :
    (rows width xs)[i]? =
      if i * width < xs.length then some ((xs.drop (i * width)).take width) else none := by
  induction i generalizing xs with
  | zero =>
    by_cases h : xs = []
    · simp [h, rows_nil]
    · have hlength : 0 * width < xs.length := by
        rw [Nat.zero_mul]
        exact List.length_pos_iff.mpr h
      rw [rows_of_ne_nil hwidth h, if_pos hlength, Nat.zero_mul]
      rfl
  | succ i ih =>
    by_cases h : xs = []
    · simp [h, rows_nil]
    · have hlength : (i + 1) * width < xs.length ↔ i * width < (xs.drop width).length := by
        rw [List.length_drop, Nat.add_mul]
        omega
      have hdrop : xs.drop ((i + 1) * width) = (xs.drop width).drop (i * width) := by
        rw [List.drop_drop, Nat.add_mul, Nat.one_mul, Nat.add_comm]
      rw [rows_of_ne_nil hwidth h, List.getElem?_cons_succ, ih, hdrop]
      simp only [hlength]

/-- A row is never empty, and it is full if another one follows. -/
theorem length_of_getElem?_rows (hwidth : 0 < width) {xs row : List α} {i : Nat}
    (h : (rows width xs)[i]? = some row) :
    0 < row.length ∧ row.length ≤ width ∧
      (i + 1 < (rows width xs).length → row.length = width) := by
  rw [getElem?_rows hwidth, Option.ite_none_right_eq_some, Option.some.injEq] at h
  obtain ⟨hi, rfl⟩ := h
  rw [List.length_take, List.length_drop]
  refine ⟨?_, ?_, ?_⟩
  · omega
  · exact Nat.min_le_left _ _
  · intro hnext
    have hsome := List.getElem?_eq_getElem hnext
    rw [getElem?_rows hwidth, Option.ite_none_right_eq_some, Nat.add_mul] at hsome
    omega

/-- The elements stand in the rows where they stand in the list. By induction on the rows. -/
theorem flatten_mapIdx_rows (hwidth : 0 < width) (xs : List α) (first : Nat) :
    ((rows width xs).mapIdx fun i row => row.zipIdx (first + i * width)).flatten =
      xs.zipIdx first := by
  induction xs using rows.induct width generalizing first with
  | case1 =>
    rw [rows_nil]
    rfl
  | case2 x xs ih =>
    have hshift : (fun i (row : List α) => row.zipIdx (first + (i + 1) * width)) =
        fun i row => row.zipIdx (first + width + i * width) := by
      funext i row
      rw [Nat.add_mul, Nat.one_mul, Nat.add_comm (i * width), Nat.add_assoc]
    have hrest : (xs.drop (width - 1)).zipIdx (first + (x :: xs.take (width - 1)).length) =
        (xs.drop (width - 1)).zipIdx (first + width) := by
      by_cases hlast : xs.length ≤ width - 1
      · rw [List.drop_eq_nil_of_le hlast]
        rfl
      · rw [List.length_cons, List.length_take, Nat.min_eq_left (by omega),
          Nat.sub_add_cancel hwidth]
    rw [rows, List.mapIdx_cons, List.flatten_cons, hshift, ih, ← hrest, Nat.zero_mul, Nat.add_zero,
      ← List.zipIdx_append, List.cons_append, List.take_append_drop]

end ForthAssembler.Text
