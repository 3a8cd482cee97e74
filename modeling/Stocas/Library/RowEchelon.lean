import Mathlib.LinearAlgebra.Span.Basic
import Mathlib.Logic.Equiv.Basic

namespace RowEchelon

/-!
# Row operations and reduced row echelon form

A matrix is a family of rows.  Exchanging two rows, scaling a row by a factor that is
not zero and subtracting a multiple of another row keep the space the rows span.
-/

section RowSpace

variable {ι K E : Type*} [Field K] [AddCommGroup E] [Module K E]

/-- The space that the rows span. -/
def rowSpace
    (K : Type*)
    [Field K]
    [Module K E]
    (rows : ι → E) :
    Submodule K E :=
  Submodule.span K (Set.range rows)

theorem row_mem_rowSpace
    (rows : ι → E)
    (row : ι) :
    rows row ∈ rowSpace K rows :=
  Submodule.subset_span (Set.mem_range_self row)

theorem rowSpace_le
    {rows : ι → E}
    {space : Submodule K E}
    (inside : ∀ row, rows row ∈ space) :
    rowSpace K rows ≤ space := by
  apply Submodule.span_le.mpr
  rintro _ ⟨row, rfl⟩
  exact inside row

/-- The order of the rows does not matter. -/
theorem rowSpace_comp
    (rows : ι → E)
    (order : Equiv.Perm ι) :
    rowSpace K (rows ∘ order) = rowSpace K rows := by
  unfold rowSpace
  rw [order.surjective.range_comp]

variable [DecidableEq ι]

/-- A row may be replaced by one of the space from which it can be recovered. -/
theorem rowSpace_update
    {rows : ι → E}
    {row : ι}
    {replacement : E}
    (inside : replacement ∈ rowSpace K rows)
    (recovered : rows row ∈ rowSpace K (Function.update rows row replacement)) :
    rowSpace K (Function.update rows row replacement) = rowSpace K rows := by
  apply le_antisymm
  · apply rowSpace_le
    intro other
    by_cases isRow : other = row
    · subst isRow
      simpa using inside
    · simpa [isRow] using row_mem_rowSpace rows other
  · apply rowSpace_le
    intro other
    by_cases isRow : other = row
    · subst isRow
      exact recovered
    · have kept := row_mem_rowSpace (K := K) (Function.update rows row replacement) other
      simpa [isRow] using kept

/-- Scaling a row by a factor that is not zero keeps the row space. -/
theorem rowSpace_update_smul
    (rows : ι → E)
    (row : ι)
    {factor : K}
    (nonzero : factor ≠ 0) :
    rowSpace K (Function.update rows row (factor • rows row)) = rowSpace K rows := by
  apply rowSpace_update
  · exact Submodule.smul_mem _ factor (row_mem_rowSpace rows row)
  · have scaled :=
      row_mem_rowSpace (K := K) (Function.update rows row (factor • rows row)) row
    rw [Function.update_self] at scaled
    simpa [smul_smul, nonzero] using Submodule.smul_mem _ factor⁻¹ scaled

/-- Subtracting a multiple of another row keeps the row space. -/
theorem rowSpace_update_sub
    (rows : ι → E)
    {row pivot : ι}
    (distinct : row ≠ pivot)
    (factor : K) :
    rowSpace K (Function.update rows row (rows row - factor • rows pivot)) =
      rowSpace K rows := by
  apply rowSpace_update
  · exact Submodule.sub_mem _ (row_mem_rowSpace rows row)
      (Submodule.smul_mem _ factor (row_mem_rowSpace rows pivot))
  · have changed :=
      row_mem_rowSpace (K := K)
        (Function.update rows row (rows row - factor • rows pivot)) row
    have kept :=
      row_mem_rowSpace (K := K)
        (Function.update rows row (rows row - factor • rows pivot)) pivot
    rw [Function.update_self] at changed
    rw [Function.update_of_ne (Ne.symm distinct)] at kept
    simpa using Submodule.add_mem _ changed (Submodule.smul_mem _ factor kept)

end RowSpace

section Echelon

variable {ι κ K : Type*} [Field K] [LT ι] [LT κ]

/-- The column holds the first entry of the row that is not zero. -/
def IsPivot
    (matrix : ι → κ → K)
    (row : ι)
    (column : κ) :
    Prop :=
  matrix row column ≠ 0 ∧ ∀ earlier, earlier < column → matrix row earlier = 0

/-- Reduced row echelon form. -/
structure ReducedRowEchelon (matrix : ι → κ → K) : Prop where
  pivot_one : ∀ row column, IsPivot matrix row column → matrix row column = 1
  pivot_alone : ∀ row column, IsPivot matrix row column →
    ∀ other, other ≠ row → matrix other column = 0
  pivots_increase : ∀ upper lower, upper < lower →
    ∀ upperColumn lowerColumn,
      IsPivot matrix upper upperColumn → IsPivot matrix lower lowerColumn →
        upperColumn < lowerColumn
  zero_last : ∀ upper lower, upper < lower → matrix upper = 0 → matrix lower = 0

end Echelon

end RowEchelon
