import Mathlib.Tactic.FieldSimp
import Stocas.Numerica.HyperDualRing

namespace NumericaCore

/-!
# Dual numbers

`Dual<F>` carries a value and its first derivative through arithmetic by closed formulas.
The general type of any order computes the same by its recurrences.
-/

/-- `Dual<F>`. -/
@[ext] structure Dual (F : Type*) where
  value : F
  derivative : F

namespace Dual

variable {F : Type*} [Field F]

/-- `Dual::variable`. -/
def independent (value : F) : Dual F where
  value := value
  derivative := 1

/-- `Dual::constant`. -/
def constant (value : F) : Dual F where
  value := value
  derivative := 0

/-- `operator+`. -/
def add (first second : Dual F) : Dual F where
  value := first.value + second.value
  derivative := first.derivative + second.derivative

/-- Binary `operator-`. -/
def sub (first second : Dual F) : Dual F where
  value := first.value - second.value
  derivative := first.derivative - second.derivative

/-- `operator*`. -/
def mul (first second : Dual F) : Dual F where
  value := first.value * second.value
  derivative := first.derivative * second.value + first.value * second.derivative

/-- `operator/`, which does not test the divisor. -/
def div (first second : Dual F) : Dual F where
  value := first.value / second.value
  derivative :=
    (first.derivative * second.value - first.value * second.derivative) /
      (second.value * second.value)

/-- Unary `operator-`. -/
def neg (x : Dual F) : Dual F where
  value := -x.value
  derivative := -x.derivative

/-- `Dual::exp`. -/
def exp (functions : ScalarFunctions F) (x : Dual F) : Dual F where
  value := functions.exp x.value
  derivative := functions.exp x.value * x.derivative

/-- `Dual::log`, which does not test its argument. -/
def log (functions : ScalarFunctions F) (x : Dual F) : Dual F where
  value := functions.log x.value
  derivative := x.derivative / x.value

/-- The series of order 1 with the same coefficients. -/
def toHyperDual (x : Dual F) : HyperDual F 1 :=
  .ofCoefficients fun k => if k = 0 then x.value else x.derivative

@[simp] theorem coefficient_zero_toHyperDual
    (x : Dual F) :
    x.toHyperDual.coefficient 0 = x.value := by
  rw [toHyperDual, HyperDual.coefficient_ofCoefficients _ (Nat.zero_le 1), if_pos rfl]

@[simp] theorem coefficient_one_toHyperDual
    (x : Dual F) :
    x.toHyperDual.coefficient 1 = x.derivative := by
  rw [toHyperDual, HyperDual.coefficient_ofCoefficients _ (Nat.le_refl 1),
    if_neg Nat.one_ne_zero]

/-- Two coefficients make up a series of order 1. -/
theorem eq_toHyperDual
    {series : HyperDual F 1}
    {x : Dual F}
    (value : series.coefficient 0 = x.value)
    (derivative : series.coefficient 1 = x.derivative) :
    series = x.toHyperDual := by
  apply HyperDual.ext_coefficient
  intro k within
  rcases Nat.le_one_iff_eq_zero_or_eq_one.mp within with rfl | rfl
  · rw [value, coefficient_zero_toHyperDual]
  · rw [derivative, coefficient_one_toHyperDual]

theorem toHyperDual_bijective :
    Function.Bijective (toHyperDual : Dual F → HyperDual F 1) := by
  constructor
  · intro first second same
    apply Dual.ext
    · simpa using congrArg (HyperDual.coefficient · 0) same
    · simpa using congrArg (HyperDual.coefficient · 1) same
  · intro series
    exact ⟨⟨series.coefficient 0, series.coefficient 1⟩, (eq_toHyperDual rfl rfl).symm⟩

theorem independent_toHyperDual
    (value : F) :
    (independent value).toHyperDual = .independent value := by
  symm
  apply eq_toHyperDual
  · rw [HyperDual.independent, HyperDual.coefficient_ofCoefficients _ (Nat.zero_le 1)]
    rfl
  · rw [HyperDual.independent, HyperDual.coefficient_ofCoefficients _ (Nat.le_refl 1)]
    rfl

theorem constant_toHyperDual
    (value : F) :
    (constant value).toHyperDual = .constant value := by
  symm
  apply eq_toHyperDual
  · rw [HyperDual.constant, HyperDual.coefficient_ofCoefficients _ (Nat.zero_le 1)]
    rfl
  · rw [HyperDual.constant, HyperDual.coefficient_ofCoefficients _ (Nat.le_refl 1)]
    rfl

theorem add_toHyperDual
    (first second : Dual F) :
    (first.add second).toHyperDual = first.toHyperDual.add second.toHyperDual := by
  symm
  apply eq_toHyperDual
  · simp [HyperDual.add, add]
  · simp [HyperDual.add, add]

theorem sub_toHyperDual
    (first second : Dual F) :
    (first.sub second).toHyperDual = first.toHyperDual.sub second.toHyperDual := by
  symm
  apply eq_toHyperDual
  · simp [HyperDual.sub, sub]
  · simp [HyperDual.sub, sub]

theorem mul_toHyperDual
    (first second : Dual F) :
    (first.mul second).toHyperDual = first.toHyperDual.mul second.toHyperDual := by
  symm
  apply eq_toHyperDual
  · simp [HyperDual.mul, mul]
  · simp [HyperDual.mul, mul, add_comm]

theorem neg_toHyperDual
    (x : Dual F) :
    x.neg.toHyperDual = (constant 0).toHyperDual.sub x.toHyperDual := by
  rw [← sub_toHyperDual]
  congr 1
  apply Dual.ext
  · simp [neg, sub, constant]
  · simp [neg, sub, constant]

/-- The closed formula for a quotient is the recurrence, where that does not throw. -/
theorem div_toHyperDual
    [DecidableEq F]
    (first second : Dual F) :
    (second.value ≠ 0 →
      first.toHyperDual.div second.toHyperDual = .ok (first.div second).toHyperDual) ∧
      ((∃ quotient, first.toHyperDual.div second.toHyperDual = .ok quotient) ↔
        second.value ≠ 0) := by
  have returned :
      second.value ≠ 0 →
        first.toHyperDual.div second.toHyperDual = .ok (first.div second).toHyperDual := by
    intro nonzero
    rw [HyperDual.div, coefficient_zero_toHyperDual, if_neg nonzero]
    refine congrArg Except.ok (eq_toHyperDual ?_ ?_)
    · simp [HyperDual.quotientUpTo, div]
    · simp [HyperDual.quotientUpTo, div]
      field_simp
  refine ⟨returned, ?_, fun nonzero => ⟨_, returned nonzero⟩⟩
  rintro ⟨quotient, divided⟩ isZero
  rw [HyperDual.div, coefficient_zero_toHyperDual, if_pos isZero] at divided
  cases divided

section Functions

variable (functions : ScalarFunctions F)

theorem exp_toHyperDual
    (x : Dual F) :
    (x.exp functions).toHyperDual = x.toHyperDual.exp functions := by
  symm
  apply eq_toHyperDual
  · simp [HyperDual.exp, HyperDual.expUpTo, exp]
  · simp [HyperDual.exp, HyperDual.expUpTo, exp, mul_comm]

/-- The closed formula for a logarithm is the recurrence, where that does not throw. -/
theorem log_toHyperDual
    (x : Dual F) :
    (functions.isPositive x.value = true →
      x.toHyperDual.log functions = .ok (x.log functions).toHyperDual) ∧
      ((∃ logarithm, x.toHyperDual.log functions = .ok logarithm) ↔
        functions.isPositive x.value = true) := by
  have returned :
      functions.isPositive x.value = true →
        x.toHyperDual.log functions = .ok (x.log functions).toHyperDual := by
    intro positive
    rw [HyperDual.log, coefficient_zero_toHyperDual, if_pos positive]
    refine congrArg Except.ok (eq_toHyperDual ?_ ?_)
    · simp [HyperDual.logUpTo, log]
    · simp [HyperDual.logUpTo, log]
  refine ⟨returned, ?_, fun positive => ⟨_, returned positive⟩⟩
  rintro ⟨logarithm, defined⟩
  rw [HyperDual.log, coefficient_zero_toHyperDual] at defined
  by_contra notPositive
  rw [if_neg notPositive] at defined
  cases defined

end Functions

/--
Dual numbers are the series of order 1: the closed formulas of each operation agree with the
recurrences of the general type, which throws where a divisor is 0 or a logarithm undefined.
-/
theorem dual_is_order_one
    [DecidableEq F]
    (functions : ScalarFunctions F) :
    Function.Bijective (toHyperDual : Dual F → HyperDual F 1) ∧
      (∀ value : F, (independent value).toHyperDual = .independent value) ∧
      (∀ value : F, (constant value).toHyperDual = .constant value) ∧
      (∀ first second : Dual F,
        (first.add second).toHyperDual = first.toHyperDual.add second.toHyperDual ∧
          (first.sub second).toHyperDual = first.toHyperDual.sub second.toHyperDual ∧
          (first.mul second).toHyperDual = first.toHyperDual.mul second.toHyperDual ∧
          (second.value ≠ 0 →
            first.toHyperDual.div second.toHyperDual = .ok (first.div second).toHyperDual) ∧
          ((∃ quotient, first.toHyperDual.div second.toHyperDual = .ok quotient) ↔
            second.value ≠ 0)) ∧
      ∀ x : Dual F,
        x.neg.toHyperDual = (constant 0).toHyperDual.sub x.toHyperDual ∧
          (x.exp functions).toHyperDual = x.toHyperDual.exp functions ∧
          (functions.isPositive x.value = true →
            x.toHyperDual.log functions = .ok (x.log functions).toHyperDual) ∧
          ((∃ logarithm, x.toHyperDual.log functions = .ok logarithm) ↔
            functions.isPositive x.value = true) := by
  refine ⟨toHyperDual_bijective, independent_toHyperDual, constant_toHyperDual, ?_, ?_⟩
  · intro first second
    exact ⟨add_toHyperDual first second, sub_toHyperDual first second,
      mul_toHyperDual first second, div_toHyperDual first second⟩
  · intro x
    exact ⟨neg_toHyperDual x, exp_toHyperDual functions x, log_toHyperDual functions x⟩

end Dual

end NumericaCore
