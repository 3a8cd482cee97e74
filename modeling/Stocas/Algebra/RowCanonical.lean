import Stocas.Algebra.RowReduce
import Stocas.Library.EchelonUniqueness

namespace AlgebraCore

open RowEchelon

/-!
# Row reduction as a canonical form

A row space has one reduced row echelon form, so row reduction decides whether two matrices
have the same row space, and leaves reduced matrices alone.
-/

variable {K : Type*} [Field K] [DecidableEq K] {rows cols : ℕ}

/-- The result of row reduction is the one reduced matrix with the row space. -/
theorem rowReduce_eq_iff
    (matrix form : RowMatrix K rows cols) :
    rowReduce matrix = form ↔
      ReducedRowEchelon form ∧ rowSpace K form = rowSpace K matrix := by
  obtain ⟨reduced, sameSpace⟩ := rowReduce_reducedRowEchelon matrix
  constructor
  · rintro rfl
    exact ⟨reduced, sameSpace⟩
  · rintro ⟨formReduced, formSpace⟩
    exact reduced.eq_of_rowSpace_eq formReduced (sameSpace.trans formSpace.symm)

/-- Row reduction is complete and idempotent: it gives equal results exactly for matrices
of one row space, and its fixed points are the reduced matrices. -/
theorem rowReduce_canonical :
    (∀ first second : RowMatrix K rows cols,
      rowReduce first = rowReduce second ↔ rowSpace K first = rowSpace K second) ∧
    (∀ matrix : RowMatrix K rows cols,
      rowReduce (rowReduce matrix) = rowReduce matrix) ∧
    ∀ matrix : RowMatrix K rows cols,
      rowReduce matrix = matrix ↔ ReducedRowEchelon matrix := by
  refine ⟨?_, ?_, ?_⟩
  · intro first second
    obtain ⟨reduced, sameSpace⟩ := rowReduce_reducedRowEchelon second
    rw [rowReduce_eq_iff, sameSpace]
    exact ⟨fun reached => reached.2.symm, fun spaces => ⟨reduced, spaces.symm⟩⟩
  · intro matrix
    exact (rowReduce_eq_iff _ _).mpr ⟨(rowReduce_reducedRowEchelon matrix).1, rfl⟩
  · intro matrix
    rw [rowReduce_eq_iff]
    exact and_iff_left rfl

end AlgebraCore
