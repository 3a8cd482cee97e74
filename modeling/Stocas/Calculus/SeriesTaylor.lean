import Stocas.Calculus.RealValue
import Stocas.Calculus.SeriesValue
import Stocas.Library.TaylorJet
import Stocas.Numerica.HyperDualFunctions

namespace CalculusCore

open AtomCore (AtomTree)
open NumericaCore (HyperDual ScalarFunctions)
open NumericaCore.HyperDual (Represents represents_constant represents_independent)
open Outcome (bind_eq_ok)
open PowerSeries (coeff constantCoeff)
open RealReading
open SymbolTable (Snapshot Symbol)
open TaylorJet
open scoped Topology

/-!
# Series expansion computes Taylor series

Over the real numbers an expansion that is returned holds the derivatives of the
function that the atom denotes, divided by factorials.
-/

/-- The functions of the real numbers. -/
noncomputable def realFunctions : ScalarFunctions ℝ where
  exp := Real.exp
  log := Real.log
  sin := Real.sin
  cos := Real.cos
  isPositive := fun c => decide (0 < c)

section Functions

variable {order : ℕ} {x result : HyperDual ℝ order} {f : ℝ → ℝ} {point : ℝ}

theorem represents_exp_jet
    (analytic : AnalyticAt ℝ f point)
    (isX : x.Represents (jet f point)) :
    (x.exp realFunctions).Represents (jet (fun y => Real.exp (f y)) point) := by
  apply isX.exp
  · rw [constantCoeff_jet, constantCoeff_jet]
    rfl
  · exact derivative_jet_comp analytic analyticAt_rexp
      (Filter.Eventually.of_forall Real.hasDerivAt_exp)

/-- A logarithm that is returned has a positive constant term. -/
theorem represents_log_jet
    (analytic : AnalyticAt ℝ f point)
    (isX : x.Represents (jet f point))
    (returned : x.log realFunctions = .ok result) :
    0 < f point ∧ result.Represents (jet (fun y => Real.log (f y)) point) := by
  have positive : 0 < f point := by
    have tested := (NumericaCore.HyperDual.log_eq_ok realFunctions returned).1
    rw [isX.coefficient_zero, constantCoeff_jet] at tested
    exact of_decide_eq_true tested
  have nonzero : constantCoeff (jet f point) ≠ 0 := by
    rw [constantCoeff_jet]
    exact positive.ne'
  refine ⟨positive, isX.log returned nonzero ?_ ?_⟩
  · rw [constantCoeff_jet, constantCoeff_jet]
    rfl
  · have hasSlope : ∀ᶠ u in 𝓝 (f point), HasDerivAt Real.log u⁻¹ u := by
      filter_upwards [eventually_ne_nhds positive.ne'] with u nonzeroU
      exact Real.hasDerivAt_log nonzeroU
    have chain :=
      derivative_jet_comp analytic (analyticAt_inv positive.ne') hasSlope
    rw [chain, jet_inv analytic positive.ne', mul_assoc,
      PowerSeries.inv_mul_cancel _ nonzero, mul_one]

theorem represents_sin_and_cos_jet
    (analytic : AnalyticAt ℝ f point)
    (isX : x.Represents (jet f point)) :
    (x.sin realFunctions).Represents (jet (fun y => Real.sin (f y)) point) ∧
      (x.cos realFunctions).Represents (jet (fun y => Real.cos (f y)) point) := by
  apply isX.sin_and_cos
  · rw [constantCoeff_jet, constantCoeff_jet]
    rfl
  · rw [constantCoeff_jet, constantCoeff_jet]
    rfl
  · exact derivative_jet_comp analytic Real.analyticAt_cos
      (Filter.Eventually.of_forall Real.hasDerivAt_sin)
  · have chain :=
      derivative_jet_comp analytic Real.analyticAt_sin.fun_neg
        (Filter.Eventually.of_forall Real.hasDerivAt_cos)
    rw [chain, jet_neg]

/-- A power of a series is that of the function. -/
theorem jet_zpow
    (analytic : AnalyticAt ℝ f point)
    {n : ℤ}
    (regular : f point ≠ 0 ∨ 0 ≤ n) :
    jet (fun y => f y ^ n) point = seriesPower (jet f point) n := by
  rw [seriesPower]
  split_ifs with negative
  · have nonzero : f point ≠ 0 := regular.resolve_right (not_le.mpr negative)
    have same : (fun y => f y ^ n) = fun y => (f y)⁻¹ ^ n.natAbs := by
      funext y
      rw [inv_pow, ← zpow_natCast, Int.ofNat_natAbs_of_nonpos negative.le, zpow_neg, inv_inv]
    rw [same, jet_pow (analytic.fun_inv nonzero), jet_inv analytic nonzero]
  · have same : (fun y => f y ^ n) = fun y => f y ^ n.natAbs := by
      funext y
      rw [← zpow_natCast, Int.natAbs_of_nonneg (not_lt.mp negative)]
    rw [same, jet_pow analytic]

/-- An integer power fails exactly for a negative power of a series that starts with 0. -/
theorem integerPower_eq_ok_iff
    (isX : x.Represents (jet f point))
    (n : ℤ) :
    (∃ result, integerPower x n = .ok result) ↔ f point ≠ 0 ∨ 0 ≤ n := by
  rw [integerPower]
  split_ifs with negative
  · have magnitude := represents_powerLoop (represents_constant 1) isX n.natAbs
    have counted : n.natAbs ≠ 0 := Int.natAbs_ne_zero.mpr negative.ne
    rw [HyperDual.div, magnitude.coefficient_zero, map_mul, map_one, map_one, one_mul,
      map_pow, constantCoeff_jet]
    by_cases isZero : f point = 0
    · rw [if_pos (by rw [isZero, zero_pow counted])]
      simp [liftDomain, isZero, not_le.mpr negative]
    · rw [if_neg (pow_ne_zero _ isZero)]
      simp [liftDomain, isZero]
  · simp [not_lt.mp negative]

end Functions

/-- The exponent is an integer that is written as a number. -/
def integerLiteral : AtomTree → Option ℤ
  | .num value => if value.den = 1 then some value.num else none
  | _ => none

theorem integerLiteral_eq_some_iff
    {exponent : AtomTree}
    {n : ℤ} :
    integerLiteral exponent = some n ↔ exponent = .num n := by
  constructor
  · intro literal
    cases exponent with
    | num value =>
        rw [integerLiteral] at literal
        split_ifs at literal with isInteger
        cases literal
        rw [Rat.coe_int_num_of_den_eq_one isInteger]
    | var | add | mul | pow | func =>
        cases literal
  · rintro rfl
    simp [integerLiteral]

section Evaluate

variable {F : Type*} [Field F] [DecidableEq F] {order : ℕ} {table : Snapshot}
  {symbols : CalculusSymbols} {functions : ScalarFunctions F} {variable_ : Symbol}

/-- The two ways of the expansion of a power. -/
theorem evaluateHyperDual_pow
    (value : HyperDual F order)
    (base exponent : AtomTree) :
    evaluateHyperDual table symbols functions variable_ value (.pow base exponent) =
      (evaluateHyperDual table symbols functions variable_ value base).bind fun baseSeries =>
        match integerLiteral exponent with
        | some n => integerPower baseSeries n
        | none =>
            (evaluateHyperDual table symbols functions variable_ value exponent).bind
              fun exponentSeries =>
                (liftDomain (baseSeries.log functions)).bind fun logarithm =>
                  .ok ((exponentSeries.mul logarithm).exp functions) := by
  rw [evaluateHyperDual]
  congr 1
  funext baseSeries
  cases exponent with
  | num number =>
      by_cases isInteger : number.den = 1
      · simp only [integerLiteral, isInteger, if_true]
      · simp only [integerLiteral, isInteger, if_false, evaluateHyperDual]
        rfl
  | var | add | mul | pow | func =>
      rfl

end Evaluate

section Sound

variable {order : ℕ} {table : Snapshot} {reading : RealReading} {point : ℝ}

/-- The expansion of an atom around the point, over the real numbers. -/
noncomputable def realExpansion
    (order : ℕ)
    (table : Snapshot)
    (reading : RealReading)
    (point : ℝ)
    (tree : AtomTree) :
    Except SeriesError (HyperDual ℝ order) :=
  evaluateHyperDual table reading.symbols realFunctions reading.variable_
    (.independent point) tree

/-- The expansion of an atom is the Taylor series of a function that it denotes. -/
def ExpandsTo
    (reading : RealReading)
    (point : ℝ)
    (tree : AtomTree)
    (result : HyperDual ℝ order) : Prop :=
  ∃ f, reading.Denotes tree f point ∧ result.Represents (jet f point)

/-- The series of the argument gives that of the call. -/
theorem expandsTo_call
    {head : Symbol}
    {argument : AtomTree}
    {inner result : HyperDual ℝ order}
    (isArgument : ExpandsTo reading point argument inner)
    (returned : applyFunction table reading.symbols realFunctions head inner = .ok result) :
    ExpandsTo reading point (.func head [argument]) result := by
  obtain ⟨f, denotes, isInner⟩ := isArgument
  have trigonometric := represents_sin_and_cos_jet denotes.analytic isInner
  rw [applyFunction] at returned
  split_ifs at returned with isSin isCos isExp isLn
  · cases returned
    refine ⟨_, denotes_call denotes Real.analyticAt_sin ?_, trigonometric.1⟩
    apply Filter.Eventually.of_forall
    intro u
    rw [realFunction, if_pos isSin]
  · cases returned
    refine ⟨_, denotes_call denotes Real.analyticAt_cos ?_, trigonometric.2⟩
    apply Filter.Eventually.of_forall
    intro u
    rw [realFunction, if_neg isSin, if_pos isCos]
  · cases returned
    refine ⟨_, denotes_call denotes analyticAt_rexp ?_,
      represents_exp_jet denotes.analytic isInner⟩
    apply Filter.Eventually.of_forall
    intro u
    rw [realFunction, if_neg isSin, if_neg isCos, if_pos isExp]
  · obtain ⟨positive, isLogarithm⟩ :=
      represents_log_jet denotes.analytic isInner (liftDomain_eq_ok returned)
    refine ⟨_, denotes_call denotes (analyticAt_log positive) ?_, isLogarithm⟩
    filter_upwards [eventually_gt_nhds positive] with u positiveU
    rw [realFunction, if_neg isSin, if_neg isCos, if_neg isExp, if_pos isLn,
      if_pos positiveU]

/-- An integer power of a series, where it is returned. -/
theorem expandsTo_integerPower
    {base : AtomTree}
    {inner result : HyperDual ℝ order}
    {n : ℤ}
    (isBase : ExpandsTo reading point base inner)
    (returned : integerPower inner n = .ok result) :
    ExpandsTo reading point (.pow base (.num n)) result := by
  obtain ⟨f, denotes, isInner⟩ := isBase
  have regular := (integerPower_eq_ok_iff isInner n).mp ⟨result, returned⟩
  refine ⟨fun y => f y ^ n, ?_, ?_⟩
  · apply denotes_pow_of_integer denotes (denotes_num (n : ℚ)) _ regular
    apply Filter.Eventually.of_forall
    intro y
    exact Rat.cast_intCast n
  · rw [jet_zpow denotes.analytic regular]
    exact represents_integerPower isInner returned

/-- A power that is computed through the logarithm of its base. -/
theorem expandsTo_power
    {base exponent : AtomTree}
    {inner outer logarithm : HyperDual ℝ order}
    (isBase : ExpandsTo reading point base inner)
    (isExponent : ExpandsTo reading point exponent outer)
    (returned : inner.log realFunctions = .ok logarithm) :
    ExpandsTo reading point (.pow base exponent)
      ((outer.mul logarithm).exp realFunctions) := by
  obtain ⟨f, baseDenotes, isInner⟩ := isBase
  obtain ⟨g, exponentDenotes, isOuter⟩ := isExponent
  obtain ⟨positive, isLogarithm⟩ :=
    represents_log_jet baseDenotes.analytic isInner returned
  have analyticLog := baseDenotes.analytic.log positive
  refine ⟨_, denotes_pow_of_pos baseDenotes exponentDenotes positive, ?_⟩
  apply represents_exp_jet (exponentDenotes.analytic.fun_mul analyticLog)
  rw [jet_mul exponentDenotes.analytic analyticLog]
  exact isOuter.mul isLogarithm

/-- The loop over terms adds their functions up. -/
private theorem expandsTo_evaluateSum
    {terms : List AtomTree}
    (all :
      ∀ term ∈ terms, ∀ result : HyperDual ℝ order,
        realExpansion order table reading point term = .ok result →
          ExpandsTo reading point term result)
    {sum result : HyperDual ℝ order}
    {f : ℝ → ℝ}
    (analytic : AnalyticAt ℝ f point)
    (isSum : sum.Represents (jet f point))
    (returned :
      evaluateSum table reading.symbols realFunctions reading.variable_ (.independent point)
        terms sum = .ok result) :
    ∃ functions,
      List.Forall₂ (fun term g => reading.Denotes term g point) terms functions ∧
        result.Represents (jet (fun y => f y + (valuesAt functions y).sum) point) := by
  induction terms generalizing sum f with
  | nil =>
      cases returned
      refine ⟨[], .nil, ?_⟩
      simpa [valuesAt] using isSum
  | cons term rest inductionHypothesis =>
      obtain ⟨next, nextReturned, later⟩ := bind_eq_ok.mp returned
      obtain ⟨g, denotes, isNext⟩ := all term List.mem_cons_self next nextReturned
      have extended : (sum.add next).Represents (jet (fun y => f y + g y) point) := by
        rw [jet_add analytic denotes.analytic]
        exact isSum.add isNext
      obtain ⟨functions, allDenote, isResult⟩ :=
        inductionHypothesis (fun other member => all other (List.mem_cons_of_mem _ member))
          (analytic.fun_add denotes.analytic) extended later
      refine ⟨g :: functions, .cons denotes allDenote, ?_⟩
      simpa [valuesAt, add_assoc] using isResult

/-- The loop over factors multiplies their functions. -/
private theorem expandsTo_evaluateProduct
    {factors : List AtomTree}
    (all :
      ∀ factor ∈ factors, ∀ result : HyperDual ℝ order,
        realExpansion order table reading point factor = .ok result →
          ExpandsTo reading point factor result)
    {product result : HyperDual ℝ order}
    {f : ℝ → ℝ}
    (analytic : AnalyticAt ℝ f point)
    (isProduct : product.Represents (jet f point))
    (returned :
      evaluateProduct table reading.symbols realFunctions reading.variable_
        (.independent point) factors product = .ok result) :
    ∃ functions,
      List.Forall₂ (fun factor g => reading.Denotes factor g point) factors functions ∧
        result.Represents (jet (fun y => f y * (valuesAt functions y).prod) point) := by
  induction factors generalizing product f with
  | nil =>
      cases returned
      refine ⟨[], .nil, ?_⟩
      simpa [valuesAt] using isProduct
  | cons factor rest inductionHypothesis =>
      obtain ⟨next, nextReturned, later⟩ := bind_eq_ok.mp returned
      obtain ⟨g, denotes, isNext⟩ := all factor List.mem_cons_self next nextReturned
      have extended : (product.mul next).Represents (jet (fun y => f y * g y) point) := by
        rw [jet_mul analytic denotes.analytic]
        exact isProduct.mul isNext
      obtain ⟨functions, allDenote, isResult⟩ :=
        inductionHypothesis (fun other member => all other (List.mem_cons_of_mem _ member))
          (analytic.fun_mul denotes.analytic) extended later
      refine ⟨g :: functions, .cons denotes allDenote, ?_⟩
      simpa [valuesAt, mul_assoc] using isResult

/-- Every expansion that is returned is a Taylor series. -/
theorem expandsTo_of_realExpansion
    {tree : AtomTree}
    {result : HyperDual ℝ order}
    (returned : realExpansion order table reading point tree = .ok result) :
    ExpandsTo reading point tree result := by
  induction tree generalizing result with
  | num value =>
      cases returned
      refine ⟨_, denotes_num value, ?_⟩
      rw [jet_const]
      exact represents_constant (value : ℝ)
  | var symbol =>
      rw [realExpansion, evaluateHyperDual] at returned
      split_ifs at returned with same
      cases returned
      subst same
      refine ⟨_, denotes_variable, ?_⟩
      rw [jet_id]
      exact represents_independent point
  | add terms inductionHypothesis =>
      have start :
          (HyperDual.constant 0 : HyperDual ℝ order).Represents
            (jet (fun _ : ℝ => (0 : ℝ)) point) := by
        rw [jet_const]
        exact represents_constant 0
      obtain ⟨functions, allDenote, isResult⟩ :=
        expandsTo_evaluateSum (fun term member _ => inductionHypothesis term member)
          analyticAt_const start returned
      simp only [zero_add] at isResult
      exact ⟨_, denotes_add allDenote, isResult⟩
  | mul factors inductionHypothesis =>
      have start :
          (HyperDual.constant 1 : HyperDual ℝ order).Represents
            (jet (fun _ : ℝ => (1 : ℝ)) point) := by
        rw [jet_const]
        exact represents_constant 1
      obtain ⟨functions, allDenote, isResult⟩ :=
        expandsTo_evaluateProduct (fun factor member _ => inductionHypothesis factor member)
          analyticAt_const start returned
      simp only [one_mul] at isResult
      exact ⟨_, denotes_mul allDenote, isResult⟩
  | pow base exponent baseHypothesis exponentHypothesis =>
      rw [realExpansion, evaluateHyperDual_pow] at returned
      obtain ⟨inner, baseReturned, rest⟩ := bind_eq_ok.mp returned
      have isBase := baseHypothesis baseReturned
      cases literal : integerLiteral exponent with
      | some n =>
          rw [literal] at rest
          rw [integerLiteral_eq_some_iff.mp literal]
          exact expandsTo_integerPower isBase rest
      | none =>
          rw [literal] at rest
          obtain ⟨outer, exponentReturned, logarithmReturned⟩ := bind_eq_ok.mp rest
          obtain ⟨logarithm, returnedLog, ended⟩ := bind_eq_ok.mp logarithmReturned
          cases ended
          exact expandsTo_power isBase (exponentHypothesis exponentReturned)
            (liftDomain_eq_ok returnedLog)
  | func head arguments inductionHypothesis =>
      rw [realExpansion, evaluateHyperDual] at returned
      rcases arguments with _ | ⟨argument, _ | ⟨second, rest⟩⟩
      · cases returned
      · obtain ⟨inner, argumentReturned, applied⟩ := bind_eq_ok.mp returned
        exact expandsTo_call
          (inductionHypothesis argument List.mem_cons_self argumentReturned) applied
      · cases returned

end Sound

end CalculusCore
