import Mathlib.Algebra.Order.Group.Int
import Mathlib.Data.Int.Order.Basic
import Mathlib.Data.Nat.Sqrt
import Mathlib.Order.Bounds.Basic
import Mathlib.Tactic.Linarith

namespace NewtonRoot

/-!
# Integer square roots by Newton's method

The integers whose square is at most a positive value have a greatest one.  A Newton step
from a positive estimate never falls below any of them, and an estimate that lies above all
of them and that the step does not lower is that greatest one.
-/

/-- The integers whose square is at most the value. -/
def roots (value : ℤ) : Set ℤ :=
  {root | root * root ≤ value}

/-- One step of Newton's method. -/
def step (value estimate : ℤ) : ℤ :=
  (estimate + value / estimate) / 2

/-- A step from a positive estimate is an upper bound of the roots. -/
theorem step_mem_upperBounds
    {value estimate : ℤ}
    (positive : 0 < estimate) :
    step value estimate ∈ upperBounds (roots value) := by
  intro root isRoot
  have isRoot : root * root ≤ value := isRoot
  have square : (2 * root - estimate) * estimate ≤ root * root := by
    nlinarith [sq_nonneg (root - estimate)]
  have quotient : 2 * root - estimate ≤ value / estimate :=
    (Int.le_ediv_iff_mul_le positive).mpr (square.trans isRoot)
  apply (Int.le_ediv_iff_mul_le two_pos).mpr
  linarith

/-- The value is an upper bound of its own roots. -/
theorem self_mem_upperBounds (value : ℤ) :
    value ∈ upperBounds (roots value) := by
  intro root isRoot
  have isRoot : root * root ≤ value := isRoot
  exact (Int.le_self_sq root).trans ((sq root).trans_le isRoot)

/-- An upper bound of the roots of a positive value is positive. -/
theorem pos_of_mem_upperBounds
    {value estimate : ℤ}
    (positive : 0 < value)
    (above : estimate ∈ upperBounds (roots value)) :
    0 < estimate := by
  have oneIsRoot : 1 ∈ roots value := by
    simpa [roots] using Int.add_one_le_of_lt positive
  exact lt_of_lt_of_le one_pos (above oneIsRoot)

/-- A positive upper bound that the step does not lower is the greatest root. -/
theorem isGreatest_of_le_step
    {value estimate : ℤ}
    (positive : 0 < estimate)
    (above : estimate ∈ upperBounds (roots value))
    (stops : estimate ≤ step value estimate) :
    IsGreatest (roots value) estimate := by
  have doubled : estimate * 2 ≤ estimate + value / estimate :=
    (Int.le_ediv_iff_mul_le two_pos).mp stops
  have quotient : estimate ≤ value / estimate := by
    linarith
  exact ⟨(Int.le_ediv_iff_mul_le positive).mp quotient, above⟩

/-- The first step, from the value itself. -/
theorem step_self
    {value : ℤ}
    (positive : 0 < value) :
    step value value = (value + 1) / 2 := by
  rw [step, Int.ediv_self positive.ne']

/-- Zero has no other root than itself. -/
theorem isGreatest_zero :
    IsGreatest (roots 0) 0 := by
  exact ⟨le_refl (0 : ℤ), self_mem_upperBounds 0⟩

/-- The greatest root as Mathlib computes it. -/
theorem isGreatest_sqrt (value : ℕ) :
    IsGreatest (roots value) (Nat.sqrt value) := by
  constructor
  · exact Int.ofNat_le.mpr (Nat.sqrt_le value)
  · intro root isRoot
    have isRoot : root * root ≤ value := isRoot
    have square : root.natAbs * root.natAbs ≤ value := by
      apply Int.ofNat_le.mp
      rw [Int.natAbs_mul_self]
      exact isRoot
    exact Int.le_natAbs.trans (Int.ofNat_le.mpr (Nat.le_sqrt.mpr square))

end NewtonRoot
