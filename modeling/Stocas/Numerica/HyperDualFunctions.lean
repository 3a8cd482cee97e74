import Mathlib.RingTheory.PowerSeries.Derivative
import Mathlib.Tactic.Ring
import Stocas.Numerica.HyperDualRing

namespace NumericaCore

open PowerSeries (coeff constantCoeff)
open TruncatedSeries (truncate)

namespace HyperDual

/-!
# Composed functions of power series

The recurrences of `exp`, `log`, `sin` and `cos` compute the first coefficients of any
power series that solves the same differential equation and starts the same way.
-/

variable {F : Type*} [Field F] {order : ℕ}

/-- The coefficients of a product with a derivative. -/
theorem coeff_derivative_mul
    (φ ψ : PowerSeries F)
    (k : ℕ) :
    coeff k (PowerSeries.derivative F φ * ψ) =
      ∑ i ∈ Finset.range (k + 1),
        ((i + 1 : ℕ) : F) * coeff (i + 1) φ * coeff (k - i) ψ := by
  rw [PowerSeries.coeff_mul, Finset.Nat.sum_antidiagonal_eq_sum_range_succ
    fun i j => coeff i (PowerSeries.derivative F φ) * coeff j ψ]
  apply Finset.sum_congr rfl
  intro i _
  rw [PowerSeries.coeff_derivative, mul_comm (coeff (i + 1) φ)]
  push_cast
  rfl

section Equations

variable {result inner outer : HyperDual F order} {ρ φ ψ : PowerSeries F}

/-- Both sides of an equation for a derivative have the same next coefficient. -/
theorem coefficient_succ_of_derivative
    [CharZero F]
    (recurrence :
      truncate order (Polynomial.derivative result.toPolynomial) =
        truncate order (Polynomial.derivative inner.toPolynomial * outer.toPolynomial))
    (equation : PowerSeries.derivative F ρ = PowerSeries.derivative F φ * ψ)
    (isInner : inner.Represents φ)
    {k : ℕ}
    (inside : k < order)
    (soFar : ∀ j, j ≤ k → outer.coefficient j = coeff j ψ) :
    result.coefficient (k + 1) = coeff (k + 1) ρ := by
  have nonzero : ((k + 1 : ℕ) : F) ≠ 0 := Nat.cast_ne_zero.mpr (Nat.succ_ne_zero k)
  have position := congrArg (coeff k) equation
  rw [coeff_derivative_mul, PowerSeries.coeff_derivative, mul_comm] at position
  have computed := truncate_derivative_iff.mp recurrence k inside
  apply mul_left_cancel₀ nonzero
  rw [computed]
  push_cast
  rw [position]
  apply Finset.sum_congr rfl
  intro i inRange
  have earlier : i + 1 ≤ k + 1 := Nat.succ_le_of_lt (Finset.mem_range.mp inRange)
  rw [isInner (i + 1) (Nat.le_trans earlier inside), soFar (k - i) (Nat.sub_le k i)]
  push_cast
  rfl

end Equations

section Functions

variable [CharZero F] {functions : ScalarFunctions F} {x : HyperDual F order}
  {φ ψ σ κ : PowerSeries F}

omit [CharZero F] in
theorem Represents.coefficient_zero
    (isX : x.Represents φ) :
    x.coefficient 0 = constantCoeff φ := by
  rw [isX 0 (Nat.zero_le order), PowerSeries.coeff_zero_eq_constantCoeff_apply]

/-- The exponential of a series solves `ψ' = φ'ψ`. -/
theorem Represents.exp
    (isX : x.Represents φ)
    (start : functions.exp (constantCoeff φ) = constantCoeff ψ)
    (equation : PowerSeries.derivative F ψ = PowerSeries.derivative F φ * ψ) :
    (HyperDual.exp functions x).Represents ψ := by
  intro k
  induction k using Nat.strong_induction_on with
  | _ k inductionHypothesis =>
      intro within
      cases k with
      | zero =>
          rw [coefficient_exp_zero, isX.coefficient_zero, start,
            PowerSeries.coeff_zero_eq_constantCoeff_apply]
      | succ k =>
          apply coefficient_succ_of_derivative (derivative_exp functions x) equation isX within
          intro j earlier
          exact inductionHypothesis j (Nat.lt_succ_of_le earlier)
            (Nat.le_trans earlier (Nat.le_of_succ_le within))

/-- The logarithm of a series solves `ψ'φ = φ'`. -/
theorem Represents.log
    (isX : x.Represents φ)
    {result : HyperDual F order}
    (defined : HyperDual.log functions x = .ok result)
    (nonzero : constantCoeff φ ≠ 0)
    (start : functions.log (constantCoeff φ) = constantCoeff ψ)
    (equation : PowerSeries.derivative F φ = PowerSeries.derivative F ψ * φ) :
    result.Represents ψ := by
  have xNonzero : x.coefficient 0 ≠ 0 := by
    rwa [isX.coefficient_zero]
  have recurrence :=
    truncate_derivative_iff.mp (derivative_log functions defined xNonzero)
  intro k
  induction k using Nat.strong_induction_on with
  | _ k inductionHypothesis =>
      intro within
      cases k with
      | zero =>
          rw [(log_eq_ok functions defined).2 0 (Nat.zero_le order),
            PowerSeries.coeff_zero_eq_constantCoeff_apply, ← start, ← isX.coefficient_zero]
          rfl
      | succ k =>
          have counted : ((k + 1 : ℕ) : F) ≠ 0 := Nat.cast_ne_zero.mpr (Nat.succ_ne_zero k)
          have position := congrArg (coeff k) equation
          rw [coeff_derivative_mul, PowerSeries.coeff_derivative, mul_comm,
            Finset.sum_range_succ, Nat.sub_self] at position
          have computed := recurrence k within
          rw [Finset.sum_range_succ, Nat.sub_self, isX (k + 1) within] at computed
          have earlierTerms :
              (∑ i ∈ Finset.range k,
                ((i + 1 : ℕ) : F) * result.coefficient (i + 1) * x.coefficient (k - i)) =
                ∑ i ∈ Finset.range k,
                  ((i + 1 : ℕ) : F) * coeff (i + 1) ψ * coeff (k - i) φ := by
            apply Finset.sum_congr rfl
            intro i inRange
            have earlier : i + 1 ≤ k := Nat.succ_le_of_lt (Finset.mem_range.mp inRange)
            rw [inductionHypothesis (i + 1) (Nat.lt_succ_of_le earlier)
                (Nat.le_trans earlier (Nat.le_of_succ_le within)),
              isX (k - i) (Nat.le_trans (Nat.sub_le k i) (Nat.le_of_succ_le within))]
          -- Only the last terms contain the next coefficients.
          rw [earlierTerms, isX 0 (Nat.zero_le order)] at computed
          rw [← Nat.cast_succ, computed] at position
          have lasts := add_left_cancel position
          have start₀ : coeff 0 φ ≠ 0 := by
            rwa [PowerSeries.coeff_zero_eq_constantCoeff_apply]
          exact mul_left_cancel₀ counted (mul_right_cancel₀ start₀ lasts)

/-- Sine and cosine of a series solve `σ' = φ'κ` and `κ' = -φ'σ` together. -/
theorem Represents.sin_and_cos
    (isX : x.Represents φ)
    (sinStart : functions.sin (constantCoeff φ) = constantCoeff σ)
    (cosStart : functions.cos (constantCoeff φ) = constantCoeff κ)
    (sinEquation : PowerSeries.derivative F σ = PowerSeries.derivative F φ * κ)
    (cosEquation : PowerSeries.derivative F κ = PowerSeries.derivative F φ * -σ) :
    (HyperDual.sin functions x).Represents σ ∧ (HyperDual.cos functions x).Represents κ := by
  have cosRecurrence := derivative_cos functions x
  rw [neg_mul, ← mul_neg, ← toPolynomial_neg] at cosRecurrence
  have both : ∀ k, k ≤ order →
      (HyperDual.sin functions x).coefficient k = coeff k σ ∧
        (HyperDual.cos functions x).coefficient k = coeff k κ := by
    intro k
    induction k using Nat.strong_induction_on with
    | _ k inductionHypothesis =>
        intro within
        cases k with
        | zero =>
            rw [coefficient_sin functions x (Nat.zero_le order),
              coefficient_cos functions x (Nat.zero_le order),
              PowerSeries.coeff_zero_eq_constantCoeff_apply,
              PowerSeries.coeff_zero_eq_constantCoeff_apply, ← sinStart, ← cosStart,
              ← isX.coefficient_zero]
            exact ⟨rfl, rfl⟩
        | succ k =>
            have soFar : ∀ j, j ≤ k →
                (HyperDual.sin functions x).coefficient j = coeff j σ ∧
                  (HyperDual.cos functions x).coefficient j = coeff j κ :=
              fun j earlier =>
                inductionHypothesis j (Nat.lt_succ_of_le earlier)
                  (Nat.le_trans earlier (Nat.le_of_succ_le within))
            constructor
            · apply coefficient_succ_of_derivative (derivative_sin functions x) sinEquation isX
                within
              exact fun j earlier => (soFar j earlier).2
            · apply coefficient_succ_of_derivative cosRecurrence cosEquation isX within
              intro j earlier
              rw [coefficient_neg _ (Nat.le_trans earlier (Nat.le_of_succ_le within)),
                (soFar j earlier).1, map_neg]
  exact ⟨fun k within => (both k within).1, fun k within => (both k within).2⟩

end Functions

end HyperDual

end NumericaCore
