import Mathlib.Algebra.Field.Basic
import Mathlib.Algebra.Field.Rat
import Mathlib.Algebra.Module.Pi
import Mathlib.Data.Fin.VecNotation
import Mathlib.Data.List.FinRange
import Stocas.Library.RowEchelon

namespace AlgebraCore

open RowEchelon

/-!
# Row reduction

`row_reduce` goes through the columns from left to right.  In each it looks for a row
that can serve as the next pivot row, brings it up, scales it to have a one in the
column, and clears the column in every other row.
-/

/-- A rectangular matrix, by rows. -/
abbrev RowMatrix (K : Type*) (rows cols : ℕ) := Fin rows → Fin cols → K

variable {K : Type*} [Field K] [DecidableEq K] {rows cols : ℕ}

/-- The loop over `selected`: the first row from `pivotRow` on whose entry in the column
is not zero. -/
def selectRow
    (matrix : RowMatrix K rows cols)
    (col : Fin cols)
    (pivotRow : ℕ) :
    Option (Fin rows) :=
  ((List.finRange rows).drop pivotRow).find? fun r => matrix r col ≠ 0

/-- `std::swap` of two rows. -/
def swapRows
    (matrix : RowMatrix K rows cols)
    (first second : Fin rows) :
    RowMatrix K rows cols :=
  matrix ∘ Equiv.swap first second

/-- The loop that multiplies the pivot row by the inverse of its pivot. -/
def scaleRow
    (matrix : RowMatrix K rows cols)
    (pivot : Fin rows)
    (invPivot : K) :
    RowMatrix K rows cols :=
  Function.update matrix pivot fun c => matrix pivot c * invPivot

/-- Clear the column in one row, unless this is the pivot row or clear already. -/
def eliminateRow
    (pivot : Fin rows)
    (col : Fin cols)
    (matrix : RowMatrix K rows cols)
    (r : Fin rows) :
    RowMatrix K rows cols :=
  if r = pivot ∨ matrix r col = 0 then
    matrix
  else
    let factor := matrix r col
    Function.update matrix r fun c => matrix r c - factor * matrix pivot c

/-- Bring the selected row up, scale it and clear the column in the other rows. -/
def clearColumn
    (matrix : RowMatrix K rows cols)
    (selected pivot : Fin rows)
    (col : Fin cols) :
    RowMatrix K rows cols :=
  let swapped := swapRows matrix selected pivot
  let scaled := scaleRow swapped pivot (swapped pivot col)⁻¹
  (List.finRange rows).foldl (eliminateRow pivot col) scaled

/-- The local variables of `row_reduce` between two columns. -/
structure Reduction (K : Type*) (rows cols : ℕ) where
  matrix : RowMatrix K rows cols
  pivotRow : ℕ

/-- The body of the loop over the columns, with the test `pivot_row < rows` that ends
the loop. -/
def reduceColumn
    (reduction : Reduction K rows cols)
    (col : Fin cols) :
    Reduction K rows cols :=
  if inside : reduction.pivotRow < rows then
    match selectRow reduction.matrix col reduction.pivotRow with
    | none => reduction
    | some selected =>
        { matrix := clearColumn reduction.matrix selected ⟨reduction.pivotRow, inside⟩ col
          pivotRow := reduction.pivotRow + 1 }
  else
    reduction

/-- `row_reduce`. -/
def rowReduce (matrix : RowMatrix K rows cols) : RowMatrix K rows cols :=
  if rows = 0 then
    matrix
  else
    ((List.finRange cols).foldl reduceColumn { matrix := matrix, pivotRow := 0 }).matrix

theorem selectRow_eq_some
    {matrix : RowMatrix K rows cols}
    {col : Fin cols}
    {pivotRow : ℕ}
    {selected : Fin rows}
    (found : selectRow matrix col pivotRow = some selected) :
    pivotRow ≤ selected ∧ matrix selected col ≠ 0 := by
  constructor
  · have member := List.mem_of_find?_eq_some found
    obtain ⟨index, inside, isSelected⟩ := List.mem_drop_iff_getElem.mp member
    rw [List.getElem_finRange] at isSelected
    subst isSelected
    simp
  · simpa using List.find?_some found

theorem selectRow_eq_none
    {matrix : RowMatrix K rows cols}
    {col : Fin cols}
    {pivotRow : ℕ}
    (absent : selectRow matrix col pivotRow = none)
    {r : Fin rows}
    (below : pivotRow ≤ r) :
    matrix r col = 0 := by
  have member : r ∈ (List.finRange rows).drop pivotRow := by
    apply List.mem_drop_iff_getElem.mpr
    refine ⟨r - pivotRow, ?_, ?_⟩
    · simp only [List.length_finRange]
      omega
    · simp [Nat.add_sub_cancel' below]
  simpa using List.find?_eq_none.mp absent r member

theorem eliminateRow_of_ne
    (pivot : Fin rows)
    (col : Fin cols)
    (matrix : RowMatrix K rows cols)
    {target r : Fin rows}
    (distinct : r ≠ target) :
    eliminateRow pivot col matrix target r = matrix r := by
  unfold eliminateRow
  split_ifs
  · rfl
  · exact Function.update_of_ne distinct _ _

theorem eliminateRow_pivot
    (pivot : Fin rows)
    (col : Fin cols)
    (matrix : RowMatrix K rows cols)
    (target : Fin rows) :
    eliminateRow pivot col matrix target pivot = matrix pivot := by
  by_cases isTarget : target = pivot
  · rw [eliminateRow, if_pos (Or.inl isTarget)]
  · exact eliminateRow_of_ne pivot col matrix (Ne.symm isTarget)

/-- A row that is clear already loses a multiple by zero. -/
theorem eliminateRow_self
    {pivot : Fin rows}
    (col : Fin cols)
    (matrix : RowMatrix K rows cols)
    {target : Fin rows}
    (distinct : target ≠ pivot) :
    eliminateRow pivot col matrix target target =
      matrix target - matrix target col • matrix pivot := by
  by_cases clear : matrix target col = 0
  · rw [eliminateRow, if_pos (Or.inr clear), clear, zero_smul, sub_zero]
  · rw [eliminateRow, if_neg (not_or.mpr ⟨distinct, clear⟩), Function.update_self]
    rfl

/-- What the elimination leaves in each row. -/
theorem foldl_eliminateRow
    (pivot : Fin rows)
    (col : Fin cols)
    (targets : List (Fin rows))
    (matrix : RowMatrix K rows cols)
    (once : targets.Nodup)
    (r : Fin rows) :
    targets.foldl (eliminateRow pivot col) matrix r =
      if r ∈ targets ∧ r ≠ pivot then
        matrix r - matrix r col • matrix pivot
      else
        matrix r := by
  induction targets generalizing matrix with
  | nil =>
      simp
  | cons target targets inductionHypothesis =>
      obtain ⟨fresh, once⟩ := List.nodup_cons.mp once
      rw [List.foldl_cons, inductionHypothesis _ once, eliminateRow_pivot]
      by_cases isTarget : r = target
      · subst isTarget
        rw [if_neg fun both => fresh both.1]
        by_cases isPivot : r = pivot
        · simp [isPivot, eliminateRow_pivot]
        · rw [if_pos ⟨List.mem_cons_self, isPivot⟩, eliminateRow_self col matrix isPivot]
      · rw [eliminateRow_of_ne pivot col matrix isTarget]
        simp [isTarget]

/-- The elimination keeps the row space. -/
theorem rowSpace_foldl_eliminateRow
    (pivot : Fin rows)
    (col : Fin cols)
    (targets : List (Fin rows))
    (matrix : RowMatrix K rows cols) :
    rowSpace K (targets.foldl (eliminateRow pivot col) matrix) = rowSpace K matrix := by
  induction targets generalizing matrix with
  | nil =>
      rfl
  | cons target targets inductionHypothesis =>
      rw [List.foldl_cons, inductionHypothesis]
      unfold eliminateRow
      split_ifs with skipped
      · rfl
      · have distinct : target ≠ pivot := fun same => skipped (Or.inl same)
        exact rowSpace_update_sub matrix distinct (matrix target col)

omit [DecidableEq K] in
theorem rowSpace_scaleRow
    (matrix : RowMatrix K rows cols)
    (pivot : Fin rows)
    {invPivot : K}
    (nonzero : invPivot ≠ 0) :
    rowSpace K (scaleRow matrix pivot invPivot) = rowSpace K matrix := by
  have scaled : (fun c => matrix pivot c * invPivot) = invPivot • matrix pivot := by
    funext c
    exact mul_comm _ _
  rw [scaleRow, scaled]
  exact rowSpace_update_smul matrix pivot nonzero

theorem rowSpace_clearColumn
    {matrix : RowMatrix K rows cols}
    {selected : Fin rows}
    (pivot : Fin rows)
    {col : Fin cols}
    (nonzero : matrix selected col ≠ 0) :
    rowSpace K (clearColumn matrix selected pivot col) = rowSpace K matrix := by
  have invertible : (swapRows matrix selected pivot pivot col)⁻¹ ≠ 0 := by
    simpa [swapRows] using nonzero
  rw [clearColumn, rowSpace_foldl_eliminateRow, rowSpace_scaleRow _ _ invertible]
  exact rowSpace_comp matrix (Equiv.swap selected pivot)

/-- The pivot row is the selected row divided by its entry in the column. -/
theorem clearColumn_pivot
    (matrix : RowMatrix K rows cols)
    (selected pivot : Fin rows)
    (col c : Fin cols) :
    clearColumn matrix selected pivot col pivot c =
      matrix selected c * (matrix selected col)⁻¹ := by
  simp [clearColumn, foldl_eliminateRow _ _ _ _ (List.nodup_finRange rows), scaleRow,
    swapRows]

/-- The other rows lose the multiple of the pivot row that clears the column. -/
theorem clearColumn_other
    (matrix : RowMatrix K rows cols)
    (selected : Fin rows)
    {pivot r : Fin rows}
    (distinct : r ≠ pivot)
    (col c : Fin cols) :
    clearColumn matrix selected pivot col r c =
      matrix (Equiv.swap selected pivot r) c -
        matrix (Equiv.swap selected pivot r) col *
          (matrix selected c * (matrix selected col)⁻¹) := by
  simp [clearColumn, foldl_eliminateRow _ _ _ _ (List.nodup_finRange rows), scaleRow,
    swapRows, distinct]

/-- The column is that of a unit vector afterwards. -/
theorem clearColumn_cleared
    {matrix : RowMatrix K rows cols}
    {selected pivot r : Fin rows}
    {col : Fin cols}
    (nonzero : matrix selected col ≠ 0)
    (distinct : r ≠ pivot) :
    clearColumn matrix selected pivot col r col = 0 := by
  rw [clearColumn_other matrix selected distinct, mul_inv_cancel₀ nonzero, mul_one, sub_self]

/-- One column keeps the row space. -/
theorem rowSpace_reduceColumn
    (reduction : Reduction K rows cols)
    (col : Fin cols) :
    rowSpace K (reduceColumn reduction col).matrix = rowSpace K reduction.matrix := by
  unfold reduceColumn
  split_ifs with inside
  · cases found : selectRow reduction.matrix col reduction.pivotRow with
    | none =>
        rfl
    | some selected =>
        exact rowSpace_clearColumn _ (selectRow_eq_some found).2
  · rfl

/-- The column is that of a pivot one, alone in its column. -/
structure PivotAt
    (matrix : RowMatrix K rows cols)
    (row : Fin rows)
    (column : Fin cols) :
    Prop where
  one : matrix row column = 1
  first : ∀ earlier, earlier < column → matrix row earlier = 0
  alone : ∀ other, other ≠ row → matrix other column = 0

omit [DecidableEq K] in
theorem PivotAt.isPivot
    {matrix : RowMatrix K rows cols}
    {row : Fin rows}
    {column : Fin cols}
    (pivotAt : PivotAt matrix row column) :
    IsPivot matrix row column :=
  ⟨by simp [pivotAt.one], pivotAt.first⟩

/-- The rows above `pivotRow` have their pivots in the processed columns; the processed
columns are zero in the rows from `pivotRow` on. -/
structure Reduced
    (reduction : Reduction K rows cols)
    (processed : ℕ) :
    Prop where
  pivots : ∀ row : Fin rows, row < reduction.pivotRow →
    ∃ column : Fin cols, column < processed ∧ PivotAt reduction.matrix row column
  increase : ∀ upper lower : Fin rows, upper < lower → lower < reduction.pivotRow →
    ∀ upperColumn lowerColumn,
      PivotAt reduction.matrix upper upperColumn →
        PivotAt reduction.matrix lower lowerColumn → upperColumn < lowerColumn
  remaining : ∀ row : Fin rows, reduction.pivotRow ≤ row →
    ∀ column : Fin cols, column < processed → reduction.matrix row column = 0

omit [DecidableEq K] in
theorem PivotAt.unique
    {matrix : RowMatrix K rows cols}
    {row : Fin rows}
    {column other : Fin cols}
    (pivotAt : PivotAt matrix row column)
    (isPivot : IsPivot matrix row other) :
    other = column := by
  rcases lt_trichotomy other column with before | same | after
  · exact absurd (pivotAt.first other before) isPivot.1
  · exact same
  · exact absurd (isPivot.2 column after) pivotAt.isPivot.1

omit [DecidableEq K] in
/-- A column in which all remaining rows are zero is processed without a step. -/
theorem Reduced.skip
    {reduction : Reduction K rows cols}
    {column : Fin cols}
    (reduced : Reduced reduction column)
    (clear : ∀ row : Fin rows, reduction.pivotRow ≤ row → reduction.matrix row column = 0) :
    Reduced reduction (column + 1) := by
  refine ⟨?_, reduced.increase, ?_⟩
  · intro row above
    obtain ⟨pivotColumn, before, pivotAt⟩ := reduced.pivots row above
    exact ⟨pivotColumn, Nat.lt_succ_of_lt before, pivotAt⟩
  · intro row below other inside
    rcases Nat.lt_succ_iff_lt_or_eq.mp inside with before | same
    · exact reduced.remaining row below other before
    · rw [Fin.ext same]
      exact clear row below

section Step

variable {reduction : Reduction K rows cols} {column : Fin cols} {selected : Fin rows}

/-- In the processed columns nothing changes. -/
theorem Reduced.clearColumn_processed
    (reduced : Reduced reduction column)
    (inside : reduction.pivotRow < rows)
    (below : reduction.pivotRow ≤ selected)
    (row : Fin rows)
    {processed : Fin cols}
    (before : processed < column) :
    clearColumn reduction.matrix selected ⟨reduction.pivotRow, inside⟩ column row processed =
      reduction.matrix row processed := by
  have selectedZero := reduced.remaining selected below processed before
  have pivotZero :=
    reduced.remaining ⟨reduction.pivotRow, inside⟩ (Nat.le_refl _) processed before
  by_cases isPivot : row = ⟨reduction.pivotRow, inside⟩
  · rw [isPivot, clearColumn_pivot, selectedZero, zero_mul, pivotZero]
  · rw [clearColumn_other _ _ isPivot, selectedZero, zero_mul, mul_zero, sub_zero]
    by_cases isSelected : row = selected
    · rw [isSelected, Equiv.swap_apply_left, selectedZero, pivotZero]
    · rw [Equiv.swap_apply_of_ne_of_ne isSelected isPivot]

/-- A pivot among the processed columns stays where it was. -/
theorem Reduced.pivotAt_clearColumn
    (reduced : Reduced reduction column)
    (inside : reduction.pivotRow < rows)
    (below : reduction.pivotRow ≤ selected)
    {row : Fin rows}
    {processed : Fin cols}
    (before : processed < column)
    (pivotAt : PivotAt reduction.matrix row processed) :
    PivotAt (clearColumn reduction.matrix selected ⟨reduction.pivotRow, inside⟩ column)
      row processed := by
  refine ⟨?_, ?_, ?_⟩
  · rw [reduced.clearColumn_processed inside below row before]
    exact pivotAt.one
  · intro earlier isEarlier
    rw [reduced.clearColumn_processed inside below row (lt_trans isEarlier before)]
    exact pivotAt.first earlier isEarlier
  · intro other distinct
    rw [reduced.clearColumn_processed inside below other before]
    exact pivotAt.alone other distinct

/-- The cleared column is that of the new pivot. -/
theorem Reduced.pivotAt_pivotRow
    (reduced : Reduced reduction column)
    (inside : reduction.pivotRow < rows)
    (below : reduction.pivotRow ≤ selected)
    (nonzero : reduction.matrix selected column ≠ 0) :
    PivotAt (clearColumn reduction.matrix selected ⟨reduction.pivotRow, inside⟩ column)
      ⟨reduction.pivotRow, inside⟩ column := by
  refine ⟨?_, ?_, ?_⟩
  · rw [clearColumn_pivot, mul_inv_cancel₀ nonzero]
  · intro earlier isEarlier
    rw [reduced.clearColumn_processed inside below _ isEarlier]
    exact reduced.remaining _ (Nat.le_refl _) earlier isEarlier
  · intro other distinct
    exact clearColumn_cleared nonzero distinct

/-- A column with a selected row becomes the column of the next pivot. -/
theorem Reduced.clearColumn
    (reduced : Reduced reduction column)
    (inside : reduction.pivotRow < rows)
    (below : reduction.pivotRow ≤ selected)
    (nonzero : reduction.matrix selected column ≠ 0) :
    Reduced
      { matrix := AlgebraCore.clearColumn reduction.matrix selected
          ⟨reduction.pivotRow, inside⟩ column
        pivotRow := reduction.pivotRow + 1 }
      (column + 1) := by
  have newPivot := reduced.pivotAt_pivotRow inside below nonzero
  -- The pivot of an upper row is the one it had before.
  have oldPivot : ∀ row : Fin rows, row < reduction.pivotRow →
      ∃ old : Fin cols, old < column ∧ PivotAt reduction.matrix row old ∧
        PivotAt
          (AlgebraCore.clearColumn reduction.matrix selected
            ⟨reduction.pivotRow, inside⟩ column) row old := by
    intro row above
    obtain ⟨old, before, pivotAt⟩ := reduced.pivots row above
    exact ⟨old, before, pivotAt, reduced.pivotAt_clearColumn inside below before pivotAt⟩
  refine ⟨?_, ?_, ?_⟩
  · intro row above
    rcases Nat.lt_succ_iff_lt_or_eq.mp above with before | same
    · obtain ⟨old, processed, _, pivotAt⟩ := oldPivot row before
      exact ⟨old, Nat.lt_succ_of_lt processed, pivotAt⟩
    · have isPivot : row = ⟨reduction.pivotRow, inside⟩ := Fin.ext same
      rw [isPivot]
      exact ⟨column, Nat.lt_succ_self _, newPivot⟩
  · intro upper lower ordered above upperColumn lowerColumn upperAt lowerAt
    obtain ⟨upperOld, upperProcessed, upperBefore, upperAfter⟩ :=
      oldPivot upper (Nat.lt_of_lt_of_le ordered (Nat.lt_succ_iff.mp above))
    rw [upperAfter.unique upperAt.isPivot]
    rcases Nat.lt_succ_iff_lt_or_eq.mp above with before | same
    · obtain ⟨lowerOld, _, lowerBefore, lowerAfter⟩ := oldPivot lower before
      rw [lowerAfter.unique lowerAt.isPivot]
      exact reduced.increase upper lower ordered before _ _ upperBefore lowerBefore
    · have isPivot : lower = ⟨reduction.pivotRow, inside⟩ := Fin.ext same
      rw [isPivot] at lowerAt
      rw [newPivot.unique lowerAt.isPivot]
      exact upperProcessed
  · intro row after other processed
    rcases Nat.lt_succ_iff_lt_or_eq.mp processed with before | same
    · exact (reduced.clearColumn_processed inside below row before).trans
        (reduced.remaining row (Nat.le_of_succ_le after) other before)
    · have distinct : row ≠ ⟨reduction.pivotRow, inside⟩ := by
        intro isPivot
        rw [isPivot] at after
        exact Nat.not_succ_le_self _ after
      rw [Fin.ext same]
      exact clearColumn_cleared nonzero distinct

/-- One column keeps the invariant. -/
theorem Reduced.reduceColumn
    (reduced : Reduced reduction column) :
    Reduced (reduceColumn reduction column) (column + 1) := by
  unfold AlgebraCore.reduceColumn
  split_ifs with inside
  · cases found : selectRow reduction.matrix column reduction.pivotRow with
    | none =>
        exact reduced.skip fun row below => selectRow_eq_none found below
    | some selected =>
        obtain ⟨below, nonzero⟩ := selectRow_eq_some found
        exact reduced.clearColumn inside below nonzero
  · apply reduced.skip
    intro row below
    exact absurd (Nat.lt_of_le_of_lt below row.isLt) inside

end Step

/-- The loop over the columns keeps the row space. -/
theorem rowSpace_foldl_reduceColumn
    (columns : List (Fin cols))
    (reduction : Reduction K rows cols) :
    rowSpace K (columns.foldl reduceColumn reduction).matrix =
      rowSpace K reduction.matrix := by
  induction columns generalizing reduction with
  | nil =>
      rfl
  | cons column columns inductionHypothesis =>
      rw [List.foldl_cons, inductionHypothesis, rowSpace_reduceColumn]

/-- The loop over the first columns keeps the invariant. -/
theorem Reduced.foldl_reduceColumn
    {reduction : Reduction K rows cols}
    (reduced : Reduced reduction 0)
    (count : ℕ)
    (within : count ≤ cols) :
    Reduced (((List.finRange cols).take count).foldl AlgebraCore.reduceColumn reduction)
      count := by
  induction count with
  | zero =>
      exact reduced
  | succ count inductionHypothesis =>
      have before :
          Reduced
            (((List.finRange cols).take count).foldl AlgebraCore.reduceColumn reduction)
            (⟨count, within⟩ : Fin cols) :=
        inductionHypothesis (Nat.le_of_succ_le within)
      have inside : count < (List.finRange cols).length := by
        simpa using Nat.lt_of_succ_le within
      rw [List.take_succ_eq_append_getElem inside, List.foldl_append]
      simpa using before.reduceColumn

omit [DecidableEq K] in
/-- When all columns are processed the matrix is in reduced row echelon form. -/
theorem Reduced.reducedRowEchelon
    {reduction : Reduction K rows cols}
    (reduced : Reduced reduction cols) :
    ReducedRowEchelon reduction.matrix := by
  have zeroRow : ∀ row : Fin rows, reduction.pivotRow ≤ row → reduction.matrix row = 0 := by
    intro row below
    funext column
    exact reduced.remaining row below column column.isLt
  have above : ∀ {row : Fin rows} {column : Fin cols},
      IsPivot reduction.matrix row column → row < reduction.pivotRow := by
    intro row column isPivot
    by_contra below
    exact isPivot.1 (congrFun (zeroRow row (Nat.le_of_not_lt below)) column)
  have pivotAt : ∀ {row : Fin rows} {column : Fin cols},
      IsPivot reduction.matrix row column → PivotAt reduction.matrix row column := by
    intro row column isPivot
    obtain ⟨pivotColumn, _, isPivotAt⟩ := reduced.pivots row (above isPivot)
    rw [isPivotAt.unique isPivot]
    exact isPivotAt
  refine ⟨?_, ?_, ?_, ?_⟩
  · intro row column isPivot
    exact (pivotAt isPivot).one
  · intro row column isPivot
    exact (pivotAt isPivot).alone
  · intro upper lower ordered upperColumn lowerColumn upperPivot lowerPivot
    exact reduced.increase upper lower ordered (above lowerPivot) upperColumn lowerColumn
      (pivotAt upperPivot) (pivotAt lowerPivot)
  · intro upper lower ordered upperZero
    apply zeroRow
    by_contra lowerAbove
    obtain ⟨column, _, isPivotAt⟩ :=
      reduced.pivots upper (Nat.lt_trans ordered (Nat.lt_of_not_le lowerAbove))
    exact isPivotAt.isPivot.1 (congrFun upperZero column)

/-- Row reduction gives the reduced row echelon form of the matrix: the same row space,
for every shape. -/
theorem rowReduce_reducedRowEchelon
    (matrix : RowMatrix K rows cols) :
    ReducedRowEchelon (rowReduce matrix) ∧
      rowSpace K (rowReduce matrix) = rowSpace K matrix := by
  unfold rowReduce
  split_ifs with empty
  · subst empty
    refine ⟨⟨?_, ?_, ?_, ?_⟩, rfl⟩
    · exact fun row => row.elim0
    · exact fun row => row.elim0
    · exact fun upper => upper.elim0
    · exact fun upper => upper.elim0
  · refine ⟨?_, rowSpace_foldl_reduceColumn _ _⟩
    apply Reduced.reducedRowEchelon
    have start : Reduced { matrix := matrix, pivotRow := 0 : Reduction K rows cols } 0 := by
      refine ⟨?_, ?_, ?_⟩
      · exact fun row above => absurd above (Nat.not_lt_zero _)
      · exact fun upper lower _ above => absurd above (Nat.not_lt_zero _)
      · exact fun row _ column before => absurd before (Nat.not_lt_zero _)
    have final := start.foldl_reduceColumn cols (Nat.le_refl cols)
    rwa [List.take_of_length_le (by simp)] at final

example :
    rowReduce (![![1, 1, 3], ![2, -1, 0]] : RowMatrix ℚ 2 3) = ![![1, 0, 1], ![0, 1, 2]] := by
  decide +kernel

end AlgebraCore
