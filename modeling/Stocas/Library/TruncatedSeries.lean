import Mathlib.Algebra.Polynomial.Derivative
import Mathlib.Algebra.Polynomial.Div
import Mathlib.RingTheory.Ideal.Quotient.Operations
import Mathlib.RingTheory.Polynomial.Basic

namespace TruncatedSeries

open Polynomial

/-!
# Polynomials modulo a power of the variable

The truncated power series of length `n` are the polynomials modulo `X ^ n`: two
polynomials agree when their first `n` coefficients do.
-/

/-- The ring of power series that are known up to the power `n`, exclusive. -/
abbrev Truncated (R : Type*) [CommRing R] (n : ℕ) :=
  R[X] ⧸ Ideal.span {(X : R[X]) ^ n}

section CommRing

variable {R : Type*} [CommRing R]

/-- Forget the coefficients from a position on. -/
noncomputable def truncate (n : ℕ) : R[X] →+* Truncated R n :=
  Ideal.Quotient.mk _

theorem truncate_eq_iff
    {n : ℕ}
    {p q : R[X]} :
    truncate n p = truncate n q ↔ ∀ k, k < n → p.coeff k = q.coeff k := by
  rw [truncate, Ideal.Quotient.eq, Ideal.mem_span_singleton, X_pow_dvd_iff]
  simp only [coeff_sub, sub_eq_zero]

theorem truncate_surjective (n : ℕ) :
    Function.Surjective (truncate n : R[X] →+* Truncated R n) :=
  Ideal.Quotient.mk_surjective

/-- The polynomial with given coefficients below a bound. -/
noncomputable def ofCoefficients
    (n : ℕ)
    (coefficient : ℕ → R) :
    R[X] :=
  ∑ k ∈ Finset.range n, monomial k (coefficient k)

theorem coeff_ofCoefficients
    {n : ℕ}
    (coefficient : ℕ → R)
    {k : ℕ}
    (inside : k < n) :
    (ofCoefficients n coefficient).coeff k = coefficient k := by
  rw [ofCoefficients, finsetSum_coeff]
  simp only [coeff_monomial]
  rw [Finset.sum_ite_eq' (Finset.range n) k coefficient, if_pos (Finset.mem_range.mpr inside)]

/-- The coefficients of a product with a derivative. -/
theorem coeff_derivative_mul
    (p q : R[X])
    (k : ℕ) :
    (derivative p * q).coeff k =
      ∑ i ∈ Finset.range (k + 1), ((i + 1 : ℕ) : R) * p.coeff (i + 1) * q.coeff (k - i) := by
  rw [coeff_mul, Finset.Nat.sum_antidiagonal_eq_sum_range_succ
    fun i j => (derivative p).coeff i * q.coeff j]
  apply Finset.sum_congr rfl
  intro i _
  rw [coeff_derivative, mul_comm (p.coeff (i + 1))]
  push_cast
  rfl

theorem coeff_mul_eq_zero
    (p : R[X])
    {q : R[X]}
    {k : ℕ}
    (below : ∀ j, j ≤ k → q.coeff j = 0) :
    (p * q).coeff k = 0 := by
  rw [coeff_mul]
  apply Finset.sum_eq_zero
  rintro ⟨i, j⟩ onDiagonal
  have sum := Finset.HasAntidiagonal.mem_antidiagonal.mp onDiagonal
  rw [below j (sum ▸ Nat.le_add_left j i), mul_zero]

/-- Where the lower coefficients vanish only the next one contributes. -/
theorem coeff_derivative_mul_of_below
    {p : R[X]}
    (q : R[X])
    {k : ℕ}
    (below : ∀ j, j ≤ k → p.coeff j = 0) :
    (derivative p * q).coeff k = ((k + 1 : ℕ) : R) * p.coeff (k + 1) * q.coeff 0 := by
  rw [coeff_derivative_mul, Finset.sum_range_succ, Nat.sub_self]
  apply add_eq_right.mpr
  apply Finset.sum_eq_zero
  intro i inRange
  rw [below (i + 1) (Finset.mem_range.mp inRange), mul_zero, zero_mul]

/-- An equation for a derivative is a recurrence for the coefficients. -/
theorem truncate_derivative_eq_iff
    {n : ℕ}
    {p q r : R[X]} :
    truncate n (derivative p) = truncate n (derivative q * r) ↔
      ∀ k, k < n →
        ((k + 1 : ℕ) : R) * p.coeff (k + 1) =
          ∑ i ∈ Finset.range (k + 1),
            ((i + 1 : ℕ) : R) * q.coeff (i + 1) * r.coeff (k - i) := by
  rw [truncate_eq_iff]
  apply forall₂_congr
  intro k _
  rw [coeff_derivative, coeff_derivative_mul, mul_comm]
  push_cast
  rfl

end CommRing

section Field

variable {F : Type*} [Field F] [CharZero F]

/-- A solution of a linear differential equation that starts at zero is zero, as far as
the equation holds. -/
theorem coeff_eq_zero_of_derivative
    {n : ℕ}
    {regular factor solution : F[X]}
    (nonzero : regular.coeff 0 ≠ 0)
    (start : solution.coeff 0 = 0)
    (equation :
      truncate n (derivative solution * regular) = truncate n (factor * solution))
    (k : ℕ)
    (within : k ≤ n) :
    solution.coeff k = 0 := by
  induction k using Nat.strong_induction_on with
  | _ k inductionHypothesis =>
      cases k with
      | zero =>
          exact start
      | succ k =>
          have below : ∀ j, j ≤ k → solution.coeff j = 0 := by
            intro j earlier
            exact inductionHypothesis j (Nat.lt_succ_of_le earlier)
              (Nat.le_trans earlier (Nat.le_of_succ_le within))
          -- Position `k` of the equation has only the next coefficient left.
          have position := truncate_eq_iff.mp equation k within
          rw [coeff_derivative_mul_of_below regular below, coeff_mul_eq_zero factor below,
            mul_eq_zero, mul_eq_zero] at position
          rcases position with (impossible | zero) | impossible
          · exact absurd impossible (Nat.cast_ne_zero.mpr (Nat.succ_ne_zero k))
          · exact zero
          · exact absurd impossible nonzero

/-- Two polynomials with one logarithmic derivative agree if their constant terms do. -/
theorem coeff_eq_of_derivative
    {n : ℕ}
    {first second : F[X]}
    (nonzero : second.coeff 0 ≠ 0)
    (start : first.coeff 0 = second.coeff 0)
    (equation :
      truncate n (derivative first * second) = truncate n (derivative second * first))
    (k : ℕ)
    (within : k ≤ n) :
    first.coeff k = second.coeff k := by
  have difference :
      truncate n (derivative (first - second) * second) =
        truncate n (derivative second * (first - second)) := by
    rw [derivative_sub, sub_mul, mul_sub, map_sub, map_sub, equation]
  have zero :=
    coeff_eq_zero_of_derivative nonzero (by rw [coeff_sub, start, sub_self]) difference k
      within
  rwa [coeff_sub, sub_eq_zero] at zero

end Field

end TruncatedSeries
