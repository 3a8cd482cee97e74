import Mathlib.Algebra.Order.Ring.Cast
import Mathlib.RingTheory.PowerSeries.Basic
import Stocas.Library.CourseOfValues
import Stocas.Library.TruncatedSeries
import Stocas.Numerica.HyperDualSeries

namespace NumericaCore

open Polynomial (derivative)
open TruncatedSeries

/-!
# The ring of truncated series

The series of an order form the ring of polynomials modulo a power of the variable, and
the composed functions solve the differential equations that define them.
-/

/-- The functions of an ordered scalar type: `>` is that of the order. -/
def ScalarFunctions.ordered
    {F : Type*}
    [Field F]
    [LinearOrder F]
    (functions : ScalarFunctions F) :
    ScalarFunctions F :=
  { functions with isPositive := fun c => decide (0 < c) }

namespace HyperDual

variable {F : Type*} [Field F] {order : ℕ}

theorem ext_coefficient
    {first second : HyperDual F order}
    (same : ∀ k, k ≤ order → first.coefficient k = second.coefficient k) :
    first = second := by
  rcases first with ⟨first⟩
  rcases second with ⟨second⟩
  congr 1
  apply Vector.ext
  intro k inside
  have entry := same k (Nat.le_of_lt_succ inside)
  simpa [coefficient, Vector.getD, inside] using entry

/-- The polynomial with the coefficients of the series. -/
noncomputable def toPolynomial (series : HyperDual F order) : Polynomial F :=
  TruncatedSeries.ofCoefficients (order + 1) series.coefficient

theorem coeff_toPolynomial
    (series : HyperDual F order)
    {k : ℕ}
    (within : k ≤ order) :
    series.toPolynomial.coeff k = series.coefficient k :=
  coeff_ofCoefficients _ (Nat.lt_succ_of_le within)

theorem represents_toPolynomial
    (series : HyperDual F order) :
    series.Represents (series.toPolynomial : PowerSeries F) := by
  intro k within
  rw [Polynomial.coeff_coe, coeff_toPolynomial series within]

/-- The series as a polynomial modulo a power of the variable. -/
noncomputable def truncated (series : HyperDual F order) : Truncated F (order + 1) :=
  truncate (order + 1) series.toPolynomial

theorem truncated_eq_iff
    {series : HyperDual F order}
    {p : Polynomial F} :
    series.truncated = truncate (order + 1) p ↔ series.Represents (p : PowerSeries F) := by
  rw [truncated, truncate_eq_iff]
  constructor
  · intro same k within
    rw [Polynomial.coeff_coe, ← same k (Nat.lt_succ_of_le within),
      coeff_toPolynomial series within]
  · intro represents k inside
    have within := Nat.le_of_lt_succ inside
    rw [coeff_toPolynomial series within, represents k within, Polynomial.coeff_coe]

theorem truncated_injective :
    Function.Injective (truncated : HyperDual F order → Truncated F (order + 1)) := by
  intro first second same
  apply ext_coefficient
  intro k within
  rw [truncated_eq_iff.mp same k within, second.represents_toPolynomial k within]

theorem truncated_surjective :
    Function.Surjective (truncated : HyperDual F order → Truncated F (order + 1)) := by
  intro residue
  obtain ⟨p, rfl⟩ := truncate_surjective (order + 1) residue
  refine ⟨ofCoefficients p.coeff, truncated_eq_iff.mpr ?_⟩
  intro k within
  rw [coefficient_ofCoefficients _ within, Polynomial.coeff_coe]

/-! The operators are those of a ring with these constants. -/

instance instAdd : Add (HyperDual F order) := ⟨add⟩

instance instSub : Sub (HyperDual F order) := ⟨sub⟩

instance instMul : Mul (HyperDual F order) := ⟨mul⟩

instance instZero : Zero (HyperDual F order) := ⟨constant 0⟩

instance instOne : One (HyperDual F order) := ⟨constant 1⟩

instance instNeg : Neg (HyperDual F order) := ⟨(constant 0).sub⟩

theorem truncated_constant
    (value : F) :
    (constant value : HyperDual F order).truncated =
      truncate (order + 1) (Polynomial.C value) := by
  rw [truncated_eq_iff, Polynomial.coe_C]
  exact represents_constant value

@[simp] theorem truncated_zero :
    (0 : HyperDual F order).truncated = 0 := by
  have constantZero : (constant 0 : HyperDual F order).truncated = _ :=
    truncated_constant 0
  rwa [map_zero, map_zero] at constantZero

@[simp] theorem truncated_one :
    (1 : HyperDual F order).truncated = 1 := by
  have constantOne : (constant 1 : HyperDual F order).truncated = _ :=
    truncated_constant 1
  rwa [map_one, map_one] at constantOne

@[simp] theorem truncated_add
    (first second : HyperDual F order) :
    (first + second).truncated = first.truncated + second.truncated := by
  have represents := first.represents_toPolynomial.add second.represents_toPolynomial
  rw [← Polynomial.coe_add] at represents
  exact (truncated_eq_iff.mpr represents).trans (map_add _ _ _)

@[simp] theorem truncated_mul
    (first second : HyperDual F order) :
    (first * second).truncated = first.truncated * second.truncated := by
  have represents := first.represents_toPolynomial.mul second.represents_toPolynomial
  rw [← Polynomial.coe_mul] at represents
  exact (truncated_eq_iff.mpr represents).trans (map_mul _ _ _)

@[simp] theorem truncated_sub
    (first second : HyperDual F order) :
    (first - second).truncated = first.truncated - second.truncated := by
  have represents :
      (first.sub second).Represents
        ((first.toPolynomial - second.toPolynomial : Polynomial F) : PowerSeries F) := by
    intro k within
    rw [Polynomial.coeff_coe, Polynomial.coeff_sub, coeff_toPolynomial first within,
      coeff_toPolynomial second within, sub, coefficient_ofCoefficients _ within]
  exact (truncated_eq_iff.mpr represents).trans (map_sub _ _ _)

@[simp] theorem truncated_neg
    (series : HyperDual F order) :
    (-series).truncated = -series.truncated := by
  have difference := truncated_sub (0 : HyperDual F order) series
  rwa [truncated_zero, zero_sub] at difference

/-- The ring laws hold because they hold modulo a power of the variable. -/
instance instCommRing : CommRing (HyperDual F order) where
  add := (· + ·)
  sub := (· - ·)
  mul := (· * ·)
  neg := (- ·)
  zero := 0
  one := 1
  nsmul := nsmulRec
  zsmul := zsmulRec
  add_assoc a b c := truncated_injective (by simp only [truncated_add, add_assoc])
  add_comm a b := truncated_injective (by simp only [truncated_add, add_comm])
  zero_add a := truncated_injective (by simp)
  add_zero a := truncated_injective (by simp)
  neg_add_cancel a := truncated_injective (by simp)
  sub_eq_add_neg a b := truncated_injective (by simp only [truncated_sub, truncated_add,
    truncated_neg, sub_eq_add_neg])
  mul_assoc a b c := truncated_injective (by simp only [truncated_mul, mul_assoc])
  mul_comm a b := truncated_injective (by simp only [truncated_mul, mul_comm])
  one_mul a := truncated_injective (by simp)
  mul_one a := truncated_injective (by simp)
  zero_mul a := truncated_injective (by simp)
  mul_zero a := truncated_injective (by simp)
  left_distrib a b c := truncated_injective (by simp only [truncated_mul, truncated_add,
    mul_add])
  right_distrib a b c := truncated_injective (by simp only [truncated_mul, truncated_add,
    add_mul])

/-- The series of an order are the polynomials modulo a power of the variable. -/
noncomputable def truncatedEquiv : HyperDual F order ≃+* Truncated F (order + 1) :=
  { Equiv.ofBijective truncated ⟨truncated_injective, truncated_surjective⟩ with
    map_add' := truncated_add
    map_mul' := truncated_mul }

/-- A quotient by a series with a constant term is a quotient in the ring. -/
theorem mul_of_div
    [DecidableEq F]
    {first second quotient : HyperDual F order}
    (divided : first.div second = .ok quotient) :
    quotient * second = first := by
  obtain ⟨regular, represents⟩ :=
    first.represents_toPolynomial.div second.represents_toPolynomial divided
  have product := represents.mul second.represents_toPolynomial
  rw [mul_assoc, PowerSeries.inv_mul_cancel _ regular, mul_one] at product
  apply ext_coefficient
  intro k within
  exact (product k within).trans (first.represents_toPolynomial k within).symm

/-- A divisor with a constant term divides every series. -/
theorem exists_div
    [DecidableEq F]
    (first : HyperDual F order)
    {second : HyperDual F order}
    (regular : second.coefficient 0 ≠ 0) :
    ∃ quotient, first.div second = .ok quotient ∧ quotient * second = first := by
  have defined :
      first.div second =
        .ok (ofCoefficients fun k => (quotientUpTo first second order).getD k 0) := by
    rw [div, if_neg regular]
  exact ⟨_, defined, mul_of_div defined⟩

/-- A differential equation for series is a recurrence for their coefficients. -/
theorem truncate_derivative_iff
    {result inner outer : HyperDual F order} :
    truncate order (derivative result.toPolynomial) =
        truncate order (derivative inner.toPolynomial * outer.toPolynomial) ↔
      ∀ k, k < order →
        ((k + 1 : ℕ) : F) * result.coefficient (k + 1) =
          ∑ i ∈ Finset.range (k + 1),
            ((i + 1 : ℕ) : F) * inner.coefficient (i + 1) * outer.coefficient (k - i) := by
  rw [truncate_derivative_eq_iff]
  apply forall₂_congr
  intro k inside
  have terms :
      (∑ i ∈ Finset.range (k + 1),
        ((i + 1 : ℕ) : F) * inner.toPolynomial.coeff (i + 1) *
          outer.toPolynomial.coeff (k - i)) =
        ∑ i ∈ Finset.range (k + 1),
          ((i + 1 : ℕ) : F) * inner.coefficient (i + 1) * outer.coefficient (k - i) := by
    apply Finset.sum_congr rfl
    intro i inRange
    have earlier : i + 1 ≤ k + 1 := Nat.succ_le_of_lt (Finset.mem_range.mp inRange)
    rw [coeff_toPolynomial inner (Nat.le_trans earlier inside),
      coeff_toPolynomial outer (Nat.le_trans (Nat.sub_le k i) inside.le)]
  rw [terms, coeff_toPolynomial result inside]

variable (functions : ScalarFunctions F)

section Exponential

theorem expUpTo_courseOfValues
    (x : HyperDual F order) :
    CourseOfValues (expUpTo functions x) (functions.exp (x.coefficient 0))
      fun k earlier =>
        (List.range (k + 1)).foldl
          (fun sum i =>
            sum + ((i + 1 : ℕ) : F) * x.coefficient (i + 1) * earlier.getD (k - i) 0)
          0 / ((k + 1 : ℕ) : F) :=
  ⟨rfl, fun _ => rfl⟩

theorem coefficient_exp
    (x : HyperDual F order)
    {k : ℕ}
    (within : k ≤ order) :
    (exp functions x).coefficient k = (expUpTo functions x k).getD k 0 := by
  rw [exp, coefficient_ofCoefficients _ within,
    (expUpTo_courseOfValues functions x).getD_eq 0 within]

theorem coefficient_exp_zero
    (x : HyperDual F order) :
    (exp functions x).coefficient 0 = functions.exp (x.coefficient 0) := by
  rw [coefficient_exp functions x (Nat.zero_le order)]
  rfl

/-- The derivative of the exponential. -/
theorem derivative_exp
    [CharZero F]
    (x : HyperDual F order) :
    truncate order (derivative (exp functions x).toPolynomial) =
      truncate order (derivative x.toPolynomial * (exp functions x).toPolynomial) := by
  apply truncate_derivative_iff.mpr
  intro k inside
  have nonzero : ((k + 1 : ℕ) : F) ≠ 0 := Nat.cast_ne_zero.mpr (Nat.succ_ne_zero k)
  have course := expUpTo_courseOfValues functions x
  rw [coefficient_exp functions x inside, course.getD_succ 0 (Nat.le_refl (k + 1)),
    mul_div_cancel₀ _ nonzero, foldl_add_eq_sum, zero_add]
  apply Finset.sum_congr rfl
  intro i _
  rw [coefficient_exp functions x (Nat.le_trans (Nat.sub_le k i) inside.le),
    course.getD_eq 0 (Nat.sub_le k i)]

end Exponential

section Logarithm

theorem logUpTo_courseOfValues
    (x : HyperDual F order) :
    CourseOfValues (logUpTo functions x) (functions.log (x.coefficient 0))
      fun k earlier =>
        (x.coefficient (k + 1) -
          (List.range k).foldl
            (fun sum i =>
              sum + ((i + 1 : ℕ) : F) * earlier.getD (i + 1) 0 * x.coefficient (k - i))
            0 / ((k + 1 : ℕ) : F)) / x.coefficient 0 :=
  ⟨rfl, fun _ => rfl⟩

theorem log_eq_ok
    {x result : HyperDual F order}
    (defined : log functions x = .ok result) :
    functions.isPositive (x.coefficient 0) = true ∧
      ∀ k, k ≤ order → result.coefficient k = (logUpTo functions x k).getD k 0 := by
  unfold log at defined
  split_ifs at defined with positive
  · refine ⟨positive, ?_⟩
    cases defined
    intro k within
    rw [coefficient_ofCoefficients _ within,
      (logUpTo_courseOfValues functions x).getD_eq 0 within]

/-- The derivative of the logarithm. -/
theorem derivative_log
    [CharZero F]
    {x result : HyperDual F order}
    (defined : log functions x = .ok result)
    (nonzero : x.coefficient 0 ≠ 0) :
    truncate order (derivative x.toPolynomial) =
      truncate order (derivative result.toPolynomial * x.toPolynomial) := by
  obtain ⟨_, coefficients⟩ := log_eq_ok functions defined
  apply truncate_derivative_iff.mpr
  intro k inside
  have countNonzero : ((k + 1 : ℕ) : F) ≠ 0 := Nat.cast_ne_zero.mpr (Nat.succ_ne_zero k)
  have course := logUpTo_courseOfValues functions x
  have last := coefficients (k + 1) inside
  rw [course.getD_succ 0 (Nat.le_refl (k + 1)), foldl_add_eq_sum, zero_add,
    eq_div_iff nonzero, eq_sub_iff_add_eq, ← mul_right_inj' countNonzero, mul_add,
    mul_div_cancel₀ _ countNonzero] at last
  rw [← last, Finset.sum_range_succ, Nat.sub_self, add_comm, mul_assoc]
  congr 1
  apply Finset.sum_congr rfl
  intro i inRange
  have earlier : i + 1 ≤ k := Nat.succ_le_of_lt (Finset.mem_range.mp inRange)
  rw [coefficients (i + 1) (Nat.le_trans earlier inside.le), course.getD_eq 0 earlier]

/-- The exponential undoes the logarithm if it does so for the constant term. -/
theorem exp_log
    [CharZero F]
    {x result : HyperDual F order}
    (defined : log functions x = .ok result)
    (nonzero : x.coefficient 0 ≠ 0)
    (scalar : functions.exp (functions.log (x.coefficient 0)) = x.coefficient 0) :
    exp functions result = x := by
  have start : (exp functions result).coefficient 0 = x.coefficient 0 := by
    rw [coefficient_exp_zero, (log_eq_ok functions defined).2 0 (Nat.zero_le order)]
    exact scalar
  have equation :
      truncate order (derivative (exp functions result).toPolynomial * x.toPolynomial) =
        truncate order (derivative x.toPolynomial * (exp functions result).toPolynomial) := by
    rw [map_mul, derivative_exp functions result, map_mul _ (derivative x.toPolynomial),
      derivative_log functions defined nonzero, map_mul, map_mul, mul_right_comm]
  apply ext_coefficient
  intro k within
  rw [← coeff_toPolynomial _ within, ← coeff_toPolynomial x within]
  refine coeff_eq_of_derivative ?_ ?_ equation k within
  · rwa [coeff_toPolynomial x (Nat.zero_le order)]
  · rwa [coeff_toPolynomial _ (Nat.zero_le order), coeff_toPolynomial x (Nat.zero_le order)]

/-- The logarithm of a series with a positive constant term. -/
theorem exists_log
    [CharZero F]
    {x : HyperDual F order}
    (positive : functions.isPositive (x.coefficient 0) = true)
    (nonzero : x.coefficient 0 ≠ 0) :
    ∃ logarithm, log functions x = .ok logarithm ∧
      truncate order (x.toPolynomial * derivative logarithm.toPolynomial) =
        truncate order (derivative x.toPolynomial) ∧
      (functions.exp (functions.log (x.coefficient 0)) = x.coefficient 0 →
        exp functions logarithm = x) := by
  have defined :
      log functions x =
        .ok (ofCoefficients fun k => (logUpTo functions x order).getD k 0) := by
    rw [log, if_pos positive]
  refine ⟨_, defined, ?_, exp_log functions defined nonzero⟩
  rw [mul_comm x.toPolynomial]
  exact (derivative_log functions defined nonzero).symm

end Logarithm

section Trigonometric

theorem sinCosUpTo_courseOfValues
    (x : HyperDual F order) :
    CourseOfValues (sinCosUpTo functions x)
      (functions.sin (x.coefficient 0), functions.cos (x.coefficient 0))
      fun k earlier =>
        let sums :=
          (List.range (k + 1)).foldl
            (fun sums i =>
              sums +
                (((i + 1 : ℕ) : F) * x.coefficient (i + 1) *
                    (earlier.getD (k - i) (0, 0)).2,
                  ((i + 1 : ℕ) : F) * x.coefficient (i + 1) *
                    (earlier.getD (k - i) (0, 0)).1))
            ((0, 0) : F × F)
        (sums.1 / ((k + 1 : ℕ) : F), -(sums.2 / ((k + 1 : ℕ) : F))) :=
  ⟨rfl, fun _ => rfl⟩

theorem coefficient_sin
    (x : HyperDual F order)
    {k : ℕ}
    (within : k ≤ order) :
    (sin functions x).coefficient k = ((sinCosUpTo functions x k).getD k (0, 0)).1 := by
  rw [sin, coefficient_ofCoefficients _ within,
    (sinCosUpTo_courseOfValues functions x).getD_eq (0, 0) within]

theorem coefficient_cos
    (x : HyperDual F order)
    {k : ℕ}
    (within : k ≤ order) :
    (cos functions x).coefficient k = ((sinCosUpTo functions x k).getD k (0, 0)).2 := by
  rw [cos, coefficient_ofCoefficients _ within,
    (sinCosUpTo_courseOfValues functions x).getD_eq (0, 0) within]

/-- The derivative of the sine. -/
theorem derivative_sin
    [CharZero F]
    (x : HyperDual F order) :
    truncate order (derivative (sin functions x).toPolynomial) =
      truncate order (derivative x.toPolynomial * (cos functions x).toPolynomial) := by
  apply truncate_derivative_iff.mpr
  intro k inside
  have nonzero : ((k + 1 : ℕ) : F) ≠ 0 := Nat.cast_ne_zero.mpr (Nat.succ_ne_zero k)
  have course := sinCosUpTo_courseOfValues functions x
  rw [coefficient_sin functions x inside, course.getD_succ (0, 0) (Nat.le_refl (k + 1)),
    foldl_add_eq_sum]
  simp only [Prod.fst_add, zero_add, Prod.fst_sum]
  rw [mul_div_cancel₀ _ nonzero]
  apply Finset.sum_congr rfl
  intro i _
  rw [coefficient_cos functions x (Nat.le_trans (Nat.sub_le k i) inside.le),
    course.getD_eq (0, 0) (Nat.sub_le k i)]

theorem coefficient_neg
    (series : HyperDual F order)
    {k : ℕ}
    (within : k ≤ order) :
    (-series).coefficient k = -series.coefficient k := by
  have difference : (-series).coefficient k = _ :=
    coefficient_ofCoefficients (fun k => (constant 0).coefficient k - series.coefficient k)
      within
  have zero : (constant 0 : HyperDual F order).coefficient k = 0 := by
    rw [represents_constant 0 k within, map_zero, map_zero]
  rw [difference, zero, zero_sub]

theorem toPolynomial_neg
    (series : HyperDual F order) :
    (-series).toPolynomial = -series.toPolynomial := by
  unfold toPolynomial TruncatedSeries.ofCoefficients
  rw [← Finset.sum_neg_distrib]
  apply Finset.sum_congr rfl
  intro k inRange
  rw [coefficient_neg series (Nat.le_of_lt_succ (Finset.mem_range.mp inRange)),
    Polynomial.monomial_neg]

/-- The derivative of the cosine. -/
theorem derivative_cos
    [CharZero F]
    (x : HyperDual F order) :
    truncate order (derivative (cos functions x).toPolynomial) =
      truncate order (-derivative x.toPolynomial * (sin functions x).toPolynomial) := by
  have equation :
      truncate order (derivative (cos functions x).toPolynomial) =
        truncate order (derivative x.toPolynomial * (-sin functions x).toPolynomial) := by
    apply truncate_derivative_iff.mpr
    intro k inside
    have nonzero : ((k + 1 : ℕ) : F) ≠ 0 := Nat.cast_ne_zero.mpr (Nat.succ_ne_zero k)
    have course := sinCosUpTo_courseOfValues functions x
    rw [coefficient_cos functions x inside, course.getD_succ (0, 0) (Nat.le_refl (k + 1)),
      foldl_add_eq_sum]
    simp only [Prod.snd_add, zero_add, Prod.snd_sum]
    rw [mul_neg, mul_div_cancel₀ _ nonzero, ← Finset.sum_neg_distrib]
    apply Finset.sum_congr rfl
    intro i _
    have within := Nat.le_trans (Nat.sub_le k i) inside.le
    rw [coefficient_neg _ within, coefficient_sin functions x within,
      course.getD_eq (0, 0) (Nat.sub_le k i), mul_neg]
  rw [equation, toPolynomial_neg, mul_neg, neg_mul]

end Trigonometric

/-- Over an ordered field the series of an order are the polynomials modulo a power of the
variable, with division by the series that have a constant term, and the composed
functions solve their differential equations. -/
theorem truncatedPowerSeries
    {F : Type*}
    [Field F]
    [LinearOrder F]
    [IsStrictOrderedRing F]
    (functions : ScalarFunctions F)
    (order : ℕ) :
    (∃ toQuotient : HyperDual F order ≃+* Truncated F (order + 1),
      ∀ f, toQuotient f =
        truncate (order + 1)
          (∑ k ∈ Finset.range (order + 1), Polynomial.monomial k (f.coefficient k))) ∧
    (∀ f g : HyperDual F order,
      f + g = f.add g ∧ f - g = f.sub g ∧ f * g = f.mul g) ∧
    (∀ f g : HyperDual F order,
      if g.coefficient 0 = 0 then
        f.div g = .error
          ⟨"HyperDual::operator/: divisor has a zero constant term (a pole at " ++
            "the expansion point) - only Taylor (non-singular) series are supported"⟩
      else
        ∃ quotient, f.div g = .ok quotient ∧ quotient * g = f) ∧
    (∀ f : HyperDual F order,
      truncate order (derivative (exp functions.ordered f).toPolynomial) =
        truncate order
          (derivative f.toPolynomial * (exp functions.ordered f).toPolynomial)) ∧
    (∀ f : HyperDual F order,
      if 0 < f.coefficient 0 then
        ∃ logarithm, log functions.ordered f = .ok logarithm ∧
          truncate order (f.toPolynomial * derivative logarithm.toPolynomial) =
            truncate order (derivative f.toPolynomial) ∧
          (functions.exp (functions.log (f.coefficient 0)) = f.coefficient 0 →
            exp functions.ordered logarithm = f)
      else
        log functions.ordered f =
          .error ⟨"HyperDual::log: constant term must be positive"⟩) ∧
    (∀ f : HyperDual F order,
      truncate order (derivative (sin functions.ordered f).toPolynomial) =
        truncate order
          (derivative f.toPolynomial * (cos functions.ordered f).toPolynomial) ∧
      truncate order (derivative (cos functions.ordered f).toPolynomial) =
        truncate order
          (-derivative f.toPolynomial * (sin functions.ordered f).toPolynomial)) := by
  refine ⟨⟨truncatedEquiv, fun _ => rfl⟩, fun _ _ => ⟨rfl, rfl, rfl⟩, ?_,
    derivative_exp functions.ordered, ?_, ?_⟩
  · intro f g
    split_ifs with pole
    · rw [div, if_pos pole]
    · exact exists_div f pole
  · intro f
    have isPositive :
        functions.ordered.isPositive (f.coefficient 0) = decide (0 < f.coefficient 0) := rfl
    split_ifs with positive
    · exact exists_log functions.ordered (isPositive.trans (decide_eq_true positive))
        positive.ne'
    · rw [log, isPositive, if_neg (by simpa using positive)]
  · intro f
    exact ⟨derivative_sin functions.ordered f, derivative_cos functions.ordered f⟩

/-- Scalar functions with the values of the real ones at zero and one. -/
def tangentFunctions : ScalarFunctions ℚ where
  exp c := c + 1
  log c := c - 1
  sin c := c
  cos _ := 1
  isPositive c := decide (0 < c)

/-- The logarithm of `1 + t` and its exponential. -/
theorem truncatedPowerSeries_onePlus :
    ∃ logarithm : HyperDual ℚ 3,
      log tangentFunctions.ordered (independent 1) = .ok logarithm ∧
        exp tangentFunctions.ordered logarithm = independent 1 := by
  obtain ⟨_, _, _, _, logarithms, _⟩ := truncatedPowerSeries tangentFunctions 3
  have constantTerm : (independent 1 : HyperDual ℚ 3).coefficient 0 = 1 := rfl
  have atOnePlus := logarithms (independent 1)
  rw [if_pos (by rw [constantTerm]; exact one_pos)] at atOnePlus
  obtain ⟨logarithm, defined, _, inverse⟩ := atOnePlus
  refine ⟨logarithm, defined, inverse ?_⟩
  rw [constantTerm]
  exact sub_add_cancel 1 1

end HyperDual

end NumericaCore
