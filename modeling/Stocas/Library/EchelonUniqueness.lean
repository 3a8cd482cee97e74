import Mathlib.LinearAlgebra.Finsupp.LinearCombination
import Mathlib.Order.Fin.Basic
import Stocas.Library.RowEchelon

namespace RowEchelon

/-!
# The reduced row echelon form of a row space

A vector of the row space is read off at the pivots, so a row space determines its pivot
columns, and with them every row.
-/

variable {ι κ K : Type*} [Field K] [Fintype ι] [LinearOrder ι] [LinearOrder κ]
  {matrix other : ι → κ → K}

omit [Fintype ι] [LinearOrder ι] in
/-- A row that is not zero has a pivot. -/
theorem exists_isPivot
    [WellFoundedLT κ]
    {row : ι}
    (nonzero : matrix row ≠ 0) :
    ∃ column, IsPivot matrix row column := by
  have entries : {column | matrix row column ≠ 0}.Nonempty := by
    by_contra none
    rw [Set.not_nonempty_iff_eq_empty] at none
    apply nonzero
    funext column
    by_contra isEntry
    have member : column ∈ {column | matrix row column ≠ 0} := isEntry
    rw [none] at member
    exact member
  refine ⟨wellFounded_lt.min _ entries, wellFounded_lt.min_mem _ entries, ?_⟩
  intro earlier before
  by_contra isEntry
  exact wellFounded_lt.not_lt_min _ isEntry before

omit [Fintype ι] [LinearOrder ι] in
/-- A row has one pivot only. -/
theorem IsPivot.unique
    {row : ι}
    {column second : κ}
    (isPivot : IsPivot matrix row column)
    (isSecond : IsPivot matrix row second) :
    column = second := by
  rcases lt_trichotomy column second with before | same | after
  · exact absurd (isSecond.2 column before) isPivot.1
  · exact same
  · exact absurd (isPivot.2 second after) isSecond.1

omit [LinearOrder ι] [LinearOrder κ] in
/-- The vectors of the row space are the combinations of the rows. -/
theorem mem_rowSpace_iff
    {vector : κ → K} :
    vector ∈ rowSpace K matrix ↔ ∃ factors : ι → K, ∑ row, factors row • matrix row = vector :=
  Submodule.mem_span_range_iff_exists_fun K

/-- At a pivot a combination of the rows has the factor of the pivot's row. -/
theorem ReducedRowEchelon.sum_apply_pivot
    (reduced : ReducedRowEchelon matrix)
    (factors : ι → K)
    {row : ι}
    {column : κ}
    (isPivot : IsPivot matrix row column) :
    (∑ each, factors each • matrix each) column = factors row := by
  rw [Finset.sum_apply, Finset.sum_eq_single row]
  · rw [Pi.smul_apply, reduced.pivot_one row column isPivot, smul_eq_mul, mul_one]
  · intro each _ distinct
    rw [Pi.smul_apply, reduced.pivot_alone row column isPivot each distinct, smul_zero]
  · intro absent
    exact absurd (Finset.mem_univ row) absent

section Pivots

variable [WellFoundedLT κ]

/-- A vector of the row space that vanishes at all pivots is zero. -/
theorem ReducedRowEchelon.eq_zero_of_pivots
    (reduced : ReducedRowEchelon matrix)
    {vector : κ → K}
    (inside : vector ∈ rowSpace K matrix)
    (vanishes : ∀ row column, IsPivot matrix row column → vector column = 0) :
    vector = 0 := by
  obtain ⟨factors, rfl⟩ := mem_rowSpace_iff.mp inside
  apply Finset.sum_eq_zero
  intro row _
  by_cases isZero : matrix row = 0
  · rw [isZero, smul_zero]
  · obtain ⟨column, isPivot⟩ := exists_isPivot isZero
    have factor := vanishes row column isPivot
    rw [reduced.sum_apply_pivot factors isPivot] at factor
    rw [factor, zero_smul]

/-- The first entry of a vector of the row space is in a pivot column. -/
theorem ReducedRowEchelon.exists_pivot_of_leading
    (reduced : ReducedRowEchelon matrix)
    {vector : κ → K}
    (inside : vector ∈ rowSpace K matrix)
    {column : κ}
    (nonzero : vector column ≠ 0)
    (leading : ∀ earlier, earlier < column → vector earlier = 0) :
    ∃ row, IsPivot matrix row column := by
  obtain ⟨factors, rfl⟩ := mem_rowSpace_iff.mp inside
  rw [Finset.sum_apply] at nonzero
  obtain ⟨row, _, term⟩ := Finset.exists_ne_zero_of_sum_ne_zero nonzero
  rw [Pi.smul_apply, smul_eq_mul] at term
  have entry : matrix row column ≠ 0 := right_ne_zero_of_mul term
  obtain ⟨pivotColumn, isPivot⟩ :=
    exists_isPivot (fun isZero => entry (congrFun isZero column))
  refine ⟨row, ?_⟩
  rcases lt_trichotomy pivotColumn column with before | same | after
  · have factor := leading pivotColumn before
    rw [reduced.sum_apply_pivot factors isPivot] at factor
    exact absurd factor (left_ne_zero_of_mul term)
  · rwa [← same]
  · exact absurd (isPivot.2 column after) entry

/-- Forms of one row space have the same pivot columns. -/
theorem ReducedRowEchelon.exists_pivot_of_rowSpace_eq
    (otherReduced : ReducedRowEchelon other)
    (sameSpace : rowSpace K matrix = rowSpace K other)
    {row : ι}
    {column : κ}
    (isPivot : IsPivot matrix row column) :
    ∃ otherRow, IsPivot other otherRow column := by
  have inside : matrix row ∈ rowSpace K other := by
    rw [← sameSpace]
    exact row_mem_rowSpace matrix row
  exact otherReduced.exists_pivot_of_leading inside isPivot.1 isPivot.2

/-- If the earlier rows have the same pivots, the pivot of the other form's row is not
further to the right. -/
private theorem exists_pivot_le
    (reduced : ReducedRowEchelon matrix)
    (otherReduced : ReducedRowEchelon other)
    (sameSpace : rowSpace K matrix = rowSpace K other)
    {row : ι}
    (samePivots :
      ∀ earlier, earlier < row → ∀ column,
        IsPivot matrix earlier column ↔ IsPivot other earlier column)
    {column : κ}
    (isPivot : IsPivot matrix row column) :
    ∃ otherColumn, otherColumn ≤ column ∧ IsPivot other row otherColumn := by
  obtain ⟨otherRow, otherPivot⟩ :=
    otherReduced.exists_pivot_of_rowSpace_eq sameSpace isPivot
  rcases lt_trichotomy otherRow row with before | same | after
  · -- The pivot would be that of an earlier row of the first form as well.
    have earlierPivot := (samePivots otherRow before column).mpr otherPivot
    exact absurd (reduced.pivots_increase otherRow row before column column earlierPivot isPivot)
      (lt_irrefl column)
  · exact ⟨column, le_rfl, same ▸ otherPivot⟩
  · have nonzero : other row ≠ 0 := by
      intro isZero
      exact otherPivot.1
        (congrFun (otherReduced.zero_last row otherRow after isZero) column)
    obtain ⟨otherColumn, rowPivot⟩ := exists_isPivot nonzero
    exact ⟨otherColumn,
      (otherReduced.pivots_increase row otherRow after otherColumn column rowPivot
        otherPivot).le,
      rowPivot⟩

variable [WellFoundedLT ι]

/-- Forms of one row space have the same pivots row by row. -/
theorem ReducedRowEchelon.isPivot_iff
    (reduced : ReducedRowEchelon matrix)
    (otherReduced : ReducedRowEchelon other)
    (sameSpace : rowSpace K matrix = rowSpace K other)
    (row : ι)
    (column : κ) :
    IsPivot matrix row column ↔ IsPivot other row column := by
  induction row using WellFoundedLT.induction generalizing column with
  | ind row inductionHypothesis =>
      have backwards :
          ∀ earlier, earlier < row → ∀ column,
            IsPivot other earlier column ↔ IsPivot matrix earlier column :=
        fun earlier before column => (inductionHypothesis earlier before column).symm
      constructor
      · intro isPivot
        obtain ⟨second, within, isSecond⟩ :=
          exists_pivot_le reduced otherReduced sameSpace inductionHypothesis isPivot
        obtain ⟨third, withinSecond, isThird⟩ :=
          exists_pivot_le otherReduced reduced sameSpace.symm backwards isSecond
        have same := isPivot.unique isThird
        rw [← same] at withinSecond
        rwa [le_antisymm withinSecond within]
      · intro isPivot
        obtain ⟨second, within, isSecond⟩ :=
          exists_pivot_le otherReduced reduced sameSpace.symm backwards isPivot
        obtain ⟨third, withinSecond, isThird⟩ :=
          exists_pivot_le reduced otherReduced sameSpace inductionHypothesis isSecond
        have same := isPivot.unique isThird
        rw [← same] at withinSecond
        rwa [le_antisymm withinSecond within]

/-- A row space has one reduced row echelon form. -/
theorem ReducedRowEchelon.eq_of_rowSpace_eq
    (reduced : ReducedRowEchelon matrix)
    (otherReduced : ReducedRowEchelon other)
    (sameSpace : rowSpace K matrix = rowSpace K other) :
    matrix = other := by
  funext row
  rw [← sub_eq_zero]
  apply reduced.eq_zero_of_pivots
  · apply Submodule.sub_mem _ (row_mem_rowSpace matrix row)
    rw [sameSpace]
    exact row_mem_rowSpace other row
  · intro pivotRow column isPivot
    have otherPivot := (reduced.isPivot_iff otherReduced sameSpace pivotRow column).mp isPivot
    rw [Pi.sub_apply, sub_eq_zero]
    by_cases same : row = pivotRow
    · rw [same, reduced.pivot_one pivotRow column isPivot,
        otherReduced.pivot_one pivotRow column otherPivot]
    · rw [reduced.pivot_alone pivotRow column isPivot row same,
        otherReduced.pivot_alone pivotRow column otherPivot row same]

end Pivots

end RowEchelon
