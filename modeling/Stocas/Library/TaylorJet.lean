import Mathlib.Algebra.BigOperators.Field
import Mathlib.Analysis.Analytic.Constructions
import Mathlib.Analysis.Calculus.ContDiff.Basic
import Mathlib.Analysis.Calculus.FDeriv.Analytic
import Mathlib.Analysis.Calculus.IteratedDeriv.Lemmas
import Mathlib.RingTheory.PowerSeries.Derivative
import Mathlib.RingTheory.PowerSeries.Inverse
import Mathlib.Topology.Algebra.Module.ModuleTopology

namespace TaylorJet

open Filter (EventuallyEq)
open PowerSeries (C X coeff constantCoeff)
open scoped Topology

/-!
# The Taylor series of a function at a point

The jet of a function is the formal power series of its derivatives, divided by
factorials.  On functions that are analytic at the point, sums, products, inverses and
derivatives of functions are those of power series.
-/

variable {𝕜 : Type*} [NontriviallyNormedField 𝕜]

/-- The Taylor series of a function at a point. -/
noncomputable def jet (f : 𝕜 → 𝕜) (point : 𝕜) : PowerSeries 𝕜 :=
  PowerSeries.mk fun k => iteratedDeriv k f point / (k.factorial : 𝕜)

variable {f g : 𝕜 → 𝕜} {point : 𝕜}

theorem coeff_jet
    (f : 𝕜 → 𝕜)
    (point : 𝕜)
    (k : ℕ) :
    coeff k (jet f point) = iteratedDeriv k f point / (k.factorial : 𝕜) :=
  PowerSeries.coeff_mk k _

@[simp] theorem constantCoeff_jet
    (f : 𝕜 → 𝕜)
    (point : 𝕜) :
    constantCoeff (jet f point) = f point := by
  rw [← PowerSeries.coeff_zero_eq_constantCoeff_apply, coeff_jet, iteratedDeriv_zero,
    Nat.factorial_zero, Nat.cast_one, div_one]

/-- The jet depends on the function near the point only. -/
theorem jet_congr
    (same : f =ᶠ[𝓝 point] g) :
    jet f point = jet g point := by
  apply PowerSeries.ext
  intro k
  rw [coeff_jet, coeff_jet, same.iteratedDeriv_eq k]

/-- A constant function has a constant series. -/
theorem jet_const
    (value : 𝕜) :
    jet (fun _ => value) point = C value := by
  apply PowerSeries.ext
  intro k
  rw [coeff_jet, iteratedDeriv_const, PowerSeries.coeff_C]
  split_ifs with isZero
  · rw [isZero, Nat.factorial_zero, Nat.cast_one, div_one]
  · exact zero_div _

/-- The argument itself has a linear series. -/
theorem jet_id :
    jet (fun y => y) point = C point + X := by
  apply PowerSeries.ext
  intro k
  rw [coeff_jet, iteratedDeriv_fun_id, map_add, PowerSeries.coeff_C, PowerSeries.coeff_X]
  rcases k with _ | _ | k
  · simp
  · simp
  · simp

theorem jet_neg
    (f : 𝕜 → 𝕜)
    (point : 𝕜) :
    jet (fun y => -f y) point = -jet f point := by
  apply PowerSeries.ext
  intro k
  rw [map_neg, coeff_jet, coeff_jet, iteratedDeriv_fun_neg, neg_div]

section Analytic

variable [CompleteSpace 𝕜]

theorem jet_add
    (analyticF : AnalyticAt 𝕜 f point)
    (analyticG : AnalyticAt 𝕜 g point) :
    jet (fun y => f y + g y) point = jet f point + jet g point := by
  apply PowerSeries.ext
  intro k
  rw [map_add, coeff_jet, coeff_jet, coeff_jet,
    iteratedDeriv_fun_add analyticF.contDiffAt analyticG.contDiffAt, add_div]

variable [CharZero 𝕜]

/-- The Leibniz rule is the Cauchy product. -/
theorem jet_mul
    (analyticF : AnalyticAt 𝕜 f point)
    (analyticG : AnalyticAt 𝕜 g point) :
    jet (fun y => f y * g y) point = jet f point * jet g point := by
  apply PowerSeries.ext
  intro k
  rw [PowerSeries.coeff_mul, coeff_jet,
    iteratedDeriv_fun_mul analyticF.contDiffAt analyticG.contDiffAt,
    Finset.Nat.sum_antidiagonal_eq_sum_range_succ
      (fun i j => coeff i (jet f point) * coeff j (jet g point)),
    Finset.sum_div]
  apply Finset.sum_congr rfl
  intro i inRange
  have within : i ≤ k := Nat.le_of_lt_succ (Finset.mem_range.mp inRange)
  have factorials :
      (k.choose i : 𝕜) * (i.factorial : 𝕜) * ((k - i).factorial : 𝕜) = (k.factorial : 𝕜) := by
    exact_mod_cast Nat.choose_mul_factorial_mul_factorial within
  have nonzero : ∀ n : ℕ, (n.factorial : 𝕜) ≠ 0 :=
    fun n => Nat.cast_ne_zero.mpr (Nat.factorial_ne_zero n)
  rw [coeff_jet, coeff_jet, div_mul_div_comm, div_eq_div_iff (nonzero k)
    (mul_ne_zero (nonzero i) (nonzero (k - i))), ← factorials]
  ring

omit [CompleteSpace 𝕜] in
/-- Differentiation shifts the coefficients. -/
theorem derivative_jet
    (f : 𝕜 → 𝕜)
    (point : 𝕜) :
    PowerSeries.derivative 𝕜 (jet f point) = jet (deriv f) point := by
  apply PowerSeries.ext
  intro k
  have nonzero : (k.factorial : 𝕜) ≠ 0 := Nat.cast_ne_zero.mpr (Nat.factorial_ne_zero k)
  have successor : ((k : 𝕜) + 1) ≠ 0 := by
    exact_mod_cast Nat.succ_ne_zero k
  rw [PowerSeries.coeff_derivative, coeff_jet, coeff_jet, iteratedDeriv_succ',
    Nat.factorial_succ]
  push_cast
  rw [div_mul_eq_mul_div, mul_comm ((k : 𝕜) + 1), mul_div_mul_right _ _ successor]

/-- The inverse of a function that does not vanish has the inverse series. -/
theorem jet_inv
    (analyticF : AnalyticAt 𝕜 f point)
    (nonzero : f point ≠ 0) :
    jet (fun y => (f y)⁻¹) point = (jet f point)⁻¹ := by
  have regular : constantCoeff (jet f point) ≠ 0 := by
    rwa [constantCoeff_jet]
  have cancels : (fun y => (f y)⁻¹ * f y) =ᶠ[𝓝 point] fun _ => 1 := by
    filter_upwards [analyticF.continuousAt.eventually_ne nonzero] with y nonzeroY
    exact inv_mul_cancel₀ nonzeroY
  rw [PowerSeries.eq_inv_iff_mul_eq_one regular,
    ← jet_mul (analyticF.fun_inv nonzero) analyticF, jet_congr cancels, jet_const, map_one]

theorem jet_pow
    (analyticF : AnalyticAt 𝕜 f point)
    (n : ℕ) :
    jet (fun y => f y ^ n) point = jet f point ^ n := by
  induction n with
  | zero =>
      simp only [pow_zero]
      rw [jet_const, map_one]
  | succ n inductionHypothesis =>
      simp only [pow_succ]
      rw [jet_mul (analyticF.fun_pow n) analyticF, inductionHypothesis]

/-- The chain rule for series. -/
theorem derivative_jet_comp
    {outer slope : 𝕜 → 𝕜}
    (analyticF : AnalyticAt 𝕜 f point)
    (analyticSlope : AnalyticAt 𝕜 slope (f point))
    (hasSlope : ∀ᶠ u in 𝓝 (f point), HasDerivAt outer (slope u) u) :
    PowerSeries.derivative 𝕜 (jet (fun y => outer (f y)) point) =
      PowerSeries.derivative 𝕜 (jet f point) * jet (fun y => slope (f y)) point := by
  have chain : deriv (fun y => outer (f y)) =ᶠ[𝓝 point] fun y => deriv f y * slope (f y) := by
    filter_upwards [analyticF.continuousAt.eventually hasSlope,
      analyticF.eventually_analyticAt] with y hasSlopeY analyticY
    have composed : HasDerivAt (fun y => outer (f y)) (slope (f y) * deriv f y) y :=
      hasSlopeY.comp y analyticY.differentiableAt.hasDerivAt
    rw [composed.deriv, mul_comm]
  rw [derivative_jet, derivative_jet, jet_congr chain,
    jet_mul analyticF.deriv (analyticSlope.fun_comp analyticF)]

/-- What the first terms of the series leave over vanishes to the next order. -/
theorem sub_sum_jet_isBigO
    (analyticF : AnalyticAt 𝕜 f point)
    (n : ℕ) :
    (fun y => f y - ∑ k ∈ Finset.range n, coeff k (jet f point) * (y - point) ^ k)
      =O[𝓝 point] fun y => ‖y - point‖ ^ n := by
  have expansion := analyticF.hasFPowerSeriesAt
  have remainder := expansion.isBigO_sub_partialSum_pow n
  have shift : Filter.Tendsto (fun y => y - point) (𝓝 point) (𝓝 0) := by
    simpa using (continuous_sub_right point).tendsto point
  have shifted := remainder.comp_tendsto shift
  refine shifted.congr' ?_ Filter.EventuallyEq.rfl
  filter_upwards with y
  simp only [Function.comp_apply, add_sub_cancel, FormalMultilinearSeries.partialSum,
    FormalMultilinearSeries.ofScalars_apply_eq, coeff_jet, smul_eq_mul]

end Analytic

end TaylorJet
