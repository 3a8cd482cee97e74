import Mathlib.Algebra.BigOperators.NatAntidiagonal
import Mathlib.RingTheory.PowerSeries.Inverse
import Stocas.Numerica.HyperDual

namespace NumericaCore

open PowerSeries (C X coeff constantCoeff)

/-!
# Truncated series and power series

A `HyperDual` holds the first coefficients of a power series.  Its operations
compute the first coefficients of the sum, product and quotient of power series.
-/

/-- A loop of additions computes a sum. -/
theorem foldl_add_eq_sum
    {M : Type*}
    [AddCommMonoid M]
    (term : Nat → M)
    (start : M)
    (count : Nat) :
    (List.range count).foldl (fun sum i => sum + term i) start =
      start + ∑ i ∈ Finset.range count, term i := by
  induction count with
  | zero =>
      simp
  | succ count inductionHypothesis =>
      rw [List.range_succ, List.foldl_append, inductionHypothesis, List.foldl_cons,
        List.foldl_nil, Finset.sum_range_succ, add_assoc]

/-- A loop of subtractions subtracts a sum. -/
theorem foldl_sub_eq_sub_sum
    {M : Type*}
    [AddCommGroup M]
    (term : Nat → M)
    (start : M)
    (count : Nat) :
    (List.range count).foldl (fun sum i => sum - term i) start =
      start - ∑ i ∈ Finset.range count, term i := by
  induction count with
  | zero =>
      simp
  | succ count inductionHypothesis =>
      rw [List.range_succ, List.foldl_append, inductionHypothesis, List.foldl_cons,
        List.foldl_nil, Finset.sum_range_succ, sub_sub]

namespace HyperDual

variable {F : Type*} [Field F] {order : Nat}

/-- The coefficients are the first ones of the power series. -/
def Represents (series : HyperDual F order) (φ : PowerSeries F) : Prop :=
  ∀ k, k ≤ order → series.coefficient k = coeff k φ

@[simp] theorem coefficient_ofCoefficients
    (coefficientAt : Nat → F)
    {k : Nat}
    (within : k ≤ order) :
    (ofCoefficients coefficientAt : HyperDual F order).coefficient k = coefficientAt k := by
  have inside : k < order + 1 := Nat.lt_succ_of_le within
  simp [coefficient, ofCoefficients, Vector.getD, inside]

theorem represents_constant
    (value : F) :
    (constant value : HyperDual F order).Represents (C value) := by
  intro k within
  rw [constant, coefficient_ofCoefficients _ within, PowerSeries.coeff_C]

theorem represents_independent
    (value : F) :
    (independent value : HyperDual F order).Represents (C value + X) := by
  intro k within
  rw [independent, coefficient_ofCoefficients _ within, map_add, PowerSeries.coeff_C,
    PowerSeries.coeff_X]
  rcases k with _ | _ | k
  · simp
  · simp
  · simp

variable {first second : HyperDual F order} {φ ψ : PowerSeries F}

theorem Represents.add
    (isFirst : first.Represents φ)
    (isSecond : second.Represents ψ) :
    (first.add second).Represents (φ + ψ) := by
  intro k within
  rw [HyperDual.add, coefficient_ofCoefficients _ within, isFirst k within,
    isSecond k within, map_add]

/-- The Cauchy product is the product of power series. -/
theorem Represents.mul
    (isFirst : first.Represents φ)
    (isSecond : second.Represents ψ) :
    (first.mul second).Represents (φ * ψ) := by
  intro k within
  rw [HyperDual.mul, coefficient_ofCoefficients _ within, foldl_add_eq_sum,
    PowerSeries.coeff_mul,
    Finset.Nat.sum_antidiagonal_eq_sum_range_succ
      (fun i j => coeff i φ * coeff j ψ),
    Finset.sum_range_succ', isFirst 0 (Nat.zero_le order), isSecond k within,
    Nat.sub_zero, add_comm]
  congr 1
  apply Finset.sum_congr rfl
  intro i inRange
  have inside := Finset.mem_range.mp inRange
  rw [isFirst (i + 1) (Nat.le_trans inside within),
    isSecond (k - (i + 1)) (Nat.le_trans (Nat.sub_le k (i + 1)) within)]

/-- The recurrence for a quotient computes the coefficients of the quotient. -/
private theorem quotientUpTo_eq_map
    (isFirst : first.Represents φ)
    (isSecond : second.Represents ψ)
    (regular : constantCoeff ψ ≠ 0)
    {k : Nat}
    (within : k ≤ order) :
    quotientUpTo first second k =
      (List.range (k + 1)).map fun i => coeff i (φ * ψ⁻¹) := by
  have secondZero : second.coefficient 0 = constantCoeff ψ := by
    rw [isSecond 0 (Nat.zero_le order), PowerSeries.coeff_zero_eq_constantCoeff_apply]
  have quotient : φ * ψ⁻¹ * ψ = φ := by
    rw [mul_assoc, PowerSeries.inv_mul_cancel ψ regular, mul_one]
  have recurrence : ∀ n : Nat,
      coeff n (φ * ψ⁻¹) * constantCoeff ψ =
        coeff n φ - ∑ i ∈ Finset.range n, coeff i (φ * ψ⁻¹) * coeff (n - i) ψ := by
    intro n
    have expanded := congrArg (coeff n) quotient
    rw [PowerSeries.coeff_mul,
      Finset.Nat.sum_antidiagonal_eq_sum_range_succ
        (fun i j => coeff i (φ * ψ⁻¹) * coeff j ψ),
      Finset.sum_range_succ, Nat.sub_self,
      PowerSeries.coeff_zero_eq_constantCoeff_apply] at expanded
    rw [← expanded, add_sub_cancel_left]
  induction k with
  | zero =>
      have zeroth := recurrence 0
      rw [Finset.sum_range_zero, sub_zero] at zeroth
      rw [quotientUpTo, isFirst 0 (Nat.zero_le order), secondZero]
      rw [← zeroth, mul_div_cancel_right₀ _ regular]
      rfl
  | succ k inductionHypothesis =>
      have earlier := inductionHypothesis (Nat.le_of_succ_le within)
      rw [List.range_succ, List.map_append, ← earlier, quotientUpTo]
      simp only [List.map_cons, List.map_nil]
      congr 2
      rw [foldl_sub_eq_sub_sum, isFirst (k + 1) within, secondZero,
        eq_comm, eq_div_iff regular, recurrence (k + 1)]
      congr 1
      apply Finset.sum_congr rfl
      intro i inRange
      have inside := Finset.mem_range.mp inRange
      rw [earlier, isSecond (k + 1 - i) (Nat.le_trans (Nat.sub_le (k + 1) i) within)]
      simp [List.getD_eq_getElem?_getD, inside]

variable [DecidableEq F]

/-- A quotient is computed exactly for a divisor with a constant term. -/
theorem div_eq_ok_iff
    (isSecond : second.Represents ψ)
    {result : HyperDual F order} :
    first.div second = .ok result ↔
      constantCoeff ψ ≠ 0 ∧
        result = ofCoefficients fun k => (quotientUpTo first second order).getD k 0 := by
  have secondZero : second.coefficient 0 = constantCoeff ψ := by
    rw [isSecond 0 (Nat.zero_le order), PowerSeries.coeff_zero_eq_constantCoeff_apply]
  rw [HyperDual.div, secondZero]
  split_ifs with isZero
  · simp [isZero]
  · simp [isZero, eq_comm]

/-- The quotient is that of power series. -/
theorem Represents.div
    (isFirst : first.Represents φ)
    (isSecond : second.Represents ψ)
    {result : HyperDual F order}
    (divided : first.div second = .ok result) :
    constantCoeff ψ ≠ 0 ∧ result.Represents (φ * ψ⁻¹) := by
  obtain ⟨regular, rfl⟩ := (div_eq_ok_iff isSecond).mp divided
  refine ⟨regular, ?_⟩
  intro k within
  rw [coefficient_ofCoefficients _ within,
    quotientUpTo_eq_map isFirst isSecond regular (Nat.le_refl order)]
  simp [List.getD_eq_getElem?_getD, Nat.lt_succ_of_le within]

end HyperDual

end NumericaCore
