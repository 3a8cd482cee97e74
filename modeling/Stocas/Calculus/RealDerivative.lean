import Mathlib.Analysis.Calculus.Deriv.ZPow
import Mathlib.Analysis.Calculus.MeanValue
import Stocas.Calculus.DerivativeValue
import Stocas.Calculus.HookCalls
import Stocas.Calculus.RealValue

namespace CalculusCore

open AtomCore (AtomTree)
open AtomCore.AtomTree
  (eval eval_mkAdd_eq eval_mkMul_eq evalAll isSome_evalAll_iff mkAdd mkMul)
open Outcome (bind_eq_ok map_eq_ok)
open SymbolTable (Snapshot Symbol)
open scoped Topology

/-!
# The symbolic derivative is the derivative

Where an atom and its symbolic derivative both have a value at a point, the atom denotes
an analytic function near the point, and its symbolic derivative denotes the derivative of
that function.
-/

/-- A function with no slope near the point is constant there. -/
theorem eventually_eq_of_deriv_eq_zero
    {f : ℝ → ℝ}
    {point : ℝ}
    (analytic : AnalyticAt ℝ f point)
    (flat : ∀ᶠ y in 𝓝 point, deriv f y = 0) :
    ∀ᶠ y in 𝓝 point, f y = f point := by
  obtain ⟨radius, positive, ball⟩ :=
    Metric.eventually_nhds_iff_ball.mp (analytic.eventually_analyticAt.and flat)
  apply Metric.eventually_nhds_iff_ball.mpr
  refine ⟨radius, positive, ?_⟩
  intro y inside
  exact Metric.isOpen_ball.is_const_of_deriv_eq_zero
    (convex_ball point radius).isPreconnected
    (fun z insideZ => (ball z insideZ).1.differentiableAt.differentiableWithinAt)
    (fun z insideZ => (ball z insideZ).2) inside (Metric.mem_ball_self positive)

namespace RealReading

variable {reading : RealReading} {tree derived : AtomTree} {f g : ℝ → ℝ} {point : ℝ}

/-- The atom denotes a function, and the other atom its derivative. -/
def Differentiates
    (reading : RealReading)
    (point : ℝ)
    (tree derived : AtomTree) : Prop :=
  ∃ f, reading.Denotes tree f point ∧ reading.Denotes derived (deriv f) point

/-- The atom has a value at the point. -/
def DefinedAt (reading : RealReading) (point : ℝ) (tree : AtomTree) : Prop :=
  (reading.valueAt tree point).isSome

theorem definedAt_num
    (value : ℚ) :
    reading.DefinedAt point (.num value) :=
  rfl

section Several

variable {trees : List AtomTree}

theorem definedAt_mkAdd_iff :
    reading.DefinedAt point (mkAdd trees) ↔
      ∀ tree ∈ trees, reading.DefinedAt point tree := by
  rw [DefinedAt, valueAt, eval_mkAdd_eq, Option.isSome_map, isSome_evalAll_iff]
  rfl

theorem definedAt_mkMul_iff :
    reading.DefinedAt point (mkMul trees) ↔
      ∀ tree ∈ trees, reading.DefinedAt point tree := by
  rw [DefinedAt, valueAt, eval_mkMul_eq, Option.isSome_map, isSome_evalAll_iff]
  rfl

theorem definedAt_add_iff :
    reading.DefinedAt point (.add trees) ↔
      ∀ tree ∈ trees, reading.DefinedAt point tree := by
  rw [DefinedAt, valueAt, eval, Option.isSome_map, isSome_evalAll_iff]
  rfl

theorem definedAt_mul_iff :
    reading.DefinedAt point (.mul trees) ↔
      ∀ tree ∈ trees, reading.DefinedAt point tree := by
  rw [DefinedAt, valueAt, eval, Option.isSome_map, isSome_evalAll_iff]
  rfl

theorem DefinedAt.arguments
    {head : Symbol}
    (defined : reading.DefinedAt point (.func head trees)) :
    ∀ tree ∈ trees, reading.DefinedAt point tree := by
  rw [DefinedAt, valueAt, eval] at defined
  exact isSome_evalAll_iff.mp (Option.isSome_of_isSome_bind defined)

end Several

theorem DefinedAt.pow
    {base exponent : AtomTree}
    (defined : reading.DefinedAt point (.pow base exponent)) :
    reading.DefinedAt point base ∧ reading.DefinedAt point exponent := by
  obtain ⟨value, isValue⟩ := Option.isSome_iff_exists.mp defined
  obtain ⟨u, v, isBase, isExponent, _⟩ := AtomCore.AtomTree.eval_pow_iff.mp isValue
  exact ⟨Option.isSome_iff_exists.mpr ⟨u, isBase⟩,
    Option.isSome_iff_exists.mpr ⟨v, isExponent⟩⟩

/-- A power of denoted functions that is defined. -/
theorem Denotes.realPower_isSome
    {base exponent : AtomTree}
    (isBase : reading.Denotes base f point)
    (isExponent : reading.Denotes exponent g point)
    (defined : reading.DefinedAt point (.pow base exponent)) :
    ∃ value, realPower (f point) (g point) = some value := by
  have baseValue := isBase.valueAt_eq
  have exponentValue := isExponent.valueAt_eq
  rw [valueAt] at baseValue exponentValue
  rw [DefinedAt, valueAt, eval, baseValue, exponentValue, Option.bind_some,
    Option.bind_some] at defined
  exact Option.isSome_iff_exists.mp defined

/-- A function that is literally zero vanishes near the point. -/
theorem Denotes.eventually_zero
    (denotes : reading.Denotes tree f point)
    (zero : isZero tree = true) :
    ∀ᶠ y in 𝓝 point, f y = 0 := by
  cases tree with
  | num number =>
      rw [isZero, beq_iff_eq] at zero
      subst zero
      filter_upwards [denotes.unique (denotes_num 0)] with y same
      rw [same, Rat.cast_zero]
  | var | add | mul | pow | func =>
      cases zero

theorem definedAt_of_isZero
    (zero : isZero tree = true) :
    reading.DefinedAt point tree := by
  cases tree with
  | num number =>
      exact definedAt_num number
  | var | add | mul | pow | func =>
      cases zero

section Lists

variable {trees deriveds : List AtomTree} {functions : List (ℝ → ℝ)}

/-- Differentiated atoms have their functions and derivatives one by one. -/
theorem exists_functions
    (all : List.Forall₂ (reading.Differentiates point) trees deriveds) :
    ∃ functions,
      List.Forall₂ (fun tree f => reading.Denotes tree f point) trees functions ∧
        List.Forall₂ (fun derived f => reading.Denotes derived f point) deriveds
          (functions.map deriv) := by
  induction all with
  | nil =>
      exact ⟨[], .nil, .nil⟩
  | cons first _ inductionHypothesis =>
      obtain ⟨f, denotes, derivedDenotes⟩ := first
      obtain ⟨functions, allDenote, allDerived⟩ := inductionHypothesis
      exact ⟨f :: functions, .cons denotes allDenote, .cons derivedDenotes allDerived⟩

/-- The derivative of a sum. -/
theorem deriv_sum_eq
    (all : List.Forall₂ (fun tree f => reading.Denotes tree f point) trees functions) :
    deriv (fun y => (valuesAt functions y).sum) =ᶠ[𝓝 point]
      fun y => (valuesAt (functions.map deriv) y).sum := by
  induction all with
  | nil =>
      apply Filter.Eventually.of_forall
      intro y
      exact deriv_const y 0
  | @cons tree f trees functions first later inductionHypothesis =>
      filter_upwards [first.analytic.eventually_analyticAt,
        (analyticAt_sum later).eventually_analyticAt, inductionHypothesis]
        with y firstY laterY sameY
      simp only [valuesAt, List.map_cons, List.sum_cons] at laterY sameY ⊢
      rw [deriv_fun_add firstY.differentiableAt laterY.differentiableAt, sameY]

/-- The terms of the product rule denote the derivative of the product. -/
theorem exists_productTerms
    {before : List AtomTree}
    {earlier : List (ℝ → ℝ)}
    (beforeDenote :
      List.Forall₂ (fun tree f => reading.Denotes tree f point) before earlier)
    (allDenote : List.Forall₂ (fun tree f => reading.Denotes tree f point) trees functions)
    (allDerived :
      List.Forall₂ (fun derived f => reading.Denotes derived f point) deriveds
        (functions.map deriv)) :
    ∃ terms,
      List.Forall₂ (fun term f => reading.Denotes term f point)
        (productTerms before trees deriveds) terms ∧
        (fun y => (valuesAt terms y).sum) =ᶠ[𝓝 point]
          fun y => (valuesAt earlier y).prod *
            deriv (fun z => (valuesAt functions z).prod) y := by
  induction allDenote generalizing before earlier deriveds with
  | nil =>
      refine ⟨[], ?_, ?_⟩
      · simp [productTerms]
      · apply Filter.Eventually.of_forall
        intro y
        simp [valuesAt]
  | @cons tree f trees functions first later inductionHypothesis =>
      cases allDerived with
      | @cons derived _ deriveds _ derivedDenotes laterDerived =>
          obtain ⟨terms, termsDenote, sum⟩ :=
            inductionHypothesis
              (List.rel_append beforeDenote (List.Forall₂.cons first .nil)) laterDerived
          have own :
              reading.Denotes (mkMul (derived :: (before ++ trees)))
                (fun y => (valuesAt (deriv f :: (earlier ++ functions)) y).prod) point :=
            denotes_mkMul (.cons derivedDenotes (List.rel_append beforeDenote later))
          refine ⟨_ :: terms, .cons own termsDenote, ?_⟩
          filter_upwards [first.analytic.eventually_analyticAt,
            (analyticAt_prod later).eventually_analyticAt, sum] with y firstY laterY sumY
          simp only [valuesAt, List.map_cons, List.map_append, List.map_nil, List.sum_cons,
            List.prod_cons, List.prod_append, List.prod_nil, mul_one] at laterY sumY ⊢
          rw [deriv_fun_mul firstY.differentiableAt laterY.differentiableAt, sumY]
          ring

/-- The derivatives in the terms of the product rule have values when the terms have. -/
theorem definedAt_of_productTerms
    {before : List AtomTree}
    (sameLength : deriveds.length = trees.length)
    (all : ∀ term ∈ productTerms before trees deriveds, reading.DefinedAt point term) :
    ∀ derived ∈ deriveds, reading.DefinedAt point derived := by
  induction trees generalizing before deriveds with
  | nil =>
      rw [List.length_nil, List.length_eq_zero_iff] at sameLength
      subst sameLength
      exact List.forall_mem_nil _
  | cons tree trees inductionHypothesis =>
      cases deriveds with
      | nil =>
          exact List.forall_mem_nil _
      | cons derived deriveds =>
          rw [productTerms, List.forall_mem_cons] at all
          rw [List.forall_mem_cons]
          refine ⟨definedAt_mkMul_iff.mp all.1 derived List.mem_cons_self, ?_⟩
          exact inductionHypothesis (Nat.succ.inj sameLength) all.2

end Lists

section Powers

variable {base exponent baseDerivative exponentDerivative : AtomTree}

/-- `exponent - 1` denotes the exponent less 1. -/
theorem denotes_exponentMinusOne
    (isExponent : reading.Denotes exponent g point) :
    reading.Denotes (exponentMinusOne exponent) (fun y => g y - 1) point where
  analytic := isExponent.analytic.fun_sub analyticAt_const
  defined := by
    filter_upwards [isExponent.defined] with y exponentY
    exact eval_exponentMinusOne exponentY

/-- Around a point with a positive base, the power is an exponential. -/
theorem hasDerivAt_exp_mul_log
    {f' g' y : ℝ}
    (hasBase : HasDerivAt f f' y)
    (hasExponent : HasDerivAt g g' y)
    (positive : 0 < f y) :
    HasDerivAt (fun z => Real.exp (g z * Real.log (f z)))
      (Real.exp (g y * Real.log (f y)) * (g' * Real.log (f y) + g y * (f' / f y))) y :=
  (hasExponent.mul (hasBase.log positive.ne')).exp

theorem differentiates_pow_of_constant
    (isBase : reading.Denotes base f point)
    (isExponent : reading.Denotes exponent g point)
    (baseFlat : ∀ᶠ y in 𝓝 point, deriv f y = 0)
    (exponentFlat : ∀ᶠ y in 𝓝 point, deriv g y = 0)
    (defined : reading.DefinedAt point (.pow base exponent)) :
    reading.Differentiates point (.pow base exponent) (.num 0) := by
  obtain ⟨value, isValue⟩ := isBase.realPower_isSome isExponent defined
  refine ⟨fun _ => value, ⟨analyticAt_const, ?_⟩, ?_⟩
  · filter_upwards [isBase.defined, isExponent.defined,
      eventually_eq_of_deriv_eq_zero isBase.analytic baseFlat,
      eventually_eq_of_deriv_eq_zero isExponent.analytic exponentFlat]
      with y baseY exponentY sameBase sameExponent
    rw [valueAt] at baseY exponentY
    rw [valueAt, eval, baseY, exponentY, Option.bind_some, Option.bind_some, sameBase,
      sameExponent]
    exact isValue
  · apply (denotes_num 0).congr
    apply Filter.Eventually.of_forall
    intro y
    simp

/-- The rule for a constant exponent, with a positive base or an integer exponent. -/
theorem differentiates_pow_of_constant_exponent
    (isBase : reading.Denotes base f point)
    (isExponent : reading.Denotes exponent g point)
    (isBaseDerivative : reading.Denotes baseDerivative (deriv f) point)
    (exponentFlat : ∀ᶠ y in 𝓝 point, deriv g y = 0)
    (defined : reading.DefinedAt point (.pow base (exponentMinusOne exponent))) :
    reading.Differentiates point (.pow base exponent)
      (mkMul [exponent, .pow base (exponentMinusOne exponent), baseDerivative]) := by
  have isLowered := denotes_exponentMinusOne isExponent
  obtain ⟨value, isValue⟩ := isBase.realPower_isSome isLowered defined
  rcases realPower_cases isValue with positive | ⟨n, isInteger, regular⟩
  · refine ⟨_, denotes_pow_of_pos isBase isExponent positive, ?_⟩
    have product :=
      denotes_mkMul (.cons isExponent
        (.cons (denotes_pow_of_pos isBase isLowered positive)
          (.cons isBaseDerivative .nil)))
    refine product.congr ?_
    filter_upwards [isBase.analytic.eventually_analyticAt,
      isExponent.analytic.eventually_analyticAt, exponentFlat,
      isBase.analytic.continuousAt.eventually_const_lt positive]
      with y analyticF analyticG flatY positiveY
    have rule :=
      hasDerivAt_exp_mul_log analyticF.differentiableAt.hasDerivAt
        analyticG.differentiableAt.hasDerivAt positiveY
    have lowered :
        Real.exp ((g y - 1) * Real.log (f y)) =
          Real.exp (g y * Real.log (f y)) / f y := by
      rw [sub_mul, one_mul, Real.exp_sub, Real.exp_log positiveY]
    rw [rule.deriv, flatY]
    simp only [valuesAt, List.map_cons, List.map_nil, List.prod_cons, List.prod_nil, mul_one,
      lowered]
    ring
  · have integer : ∀ᶠ y in 𝓝 point, g y = ((n + 1 : ℤ) : ℝ) := by
      filter_upwards [eventually_eq_of_deriv_eq_zero isExponent.analytic exponentFlat]
        with y same
      rw [same, Int.cast_add, Int.cast_one, ← isInteger, sub_add_cancel]
    have loweredInteger : ∀ᶠ y in 𝓝 point, g y - 1 = (n : ℝ) := by
      filter_upwards [integer] with y same
      rw [same, Int.cast_add, Int.cast_one, add_sub_cancel_right]
    have raised : f point ≠ 0 ∨ 0 ≤ n + 1 :=
      regular.imp_right fun natural => Int.add_nonneg natural Int.one_nonneg
    refine ⟨_, denotes_pow_of_integer isBase isExponent integer raised, ?_⟩
    have product :=
      denotes_mkMul (.cons isExponent
        (.cons (denotes_pow_of_integer isBase isLowered loweredInteger regular)
          (.cons isBaseDerivative .nil)))
    have nearby : ∀ᶠ y in 𝓝 point, f y ≠ 0 ∨ 0 ≤ n + 1 := by
      rcases raised with nonzero | natural
      · filter_upwards [isBase.analytic.continuousAt.eventually_ne nonzero] with y nonzeroY
        exact Or.inl nonzeroY
      · exact Filter.Eventually.of_forall fun _ => Or.inr natural
    refine product.congr ?_
    filter_upwards [isBase.analytic.eventually_analyticAt, integer, nearby]
      with y analyticF integerY regularY
    have outer := hasDerivAt_zpow (n + 1) (f y) regularY
    have rule : HasDerivAt (fun z => f z ^ (n + 1)) _ y :=
      outer.comp y analyticF.differentiableAt.hasDerivAt
    rw [rule.deriv]
    simp only [valuesAt, List.map_cons, List.map_nil, List.prod_cons, List.prod_nil, mul_one,
      integerY, add_sub_cancel_right]
    ring

variable (distinct : reading.symbols.Distinct)

include distinct in
/-- The logarithm of a denoted function is defined exactly where that is positive. -/
theorem denotes_ln
    (isBase : reading.Denotes base f point)
    (defined : reading.DefinedAt point (.func reading.symbols.ln [base])) :
    0 < f point ∧
      reading.Denotes (.func reading.symbols.ln [base]) (fun y => Real.log (f y)) point := by
  have function_ln : ∀ u : ℝ,
      realFunction reading.symbols reading.other reading.symbols.ln [u] =
        if 0 < u then some (Real.log u) else none :=
    fun u => (realFunction_builtin distinct reading.other u).2.2.2
  have positive : 0 < f point := by
    have baseValue := isBase.valueAt_eq
    rw [valueAt] at baseValue
    rw [DefinedAt, valueAt, eval_unary baseValue] at defined
    by_contra notPositive
    have nothing := function_ln (f point)
    rw [if_neg notPositive] at nothing
    rw [show (reading.meaningAt point).function reading.symbols.ln [f point] = none from
      nothing] at defined
    cases defined
  refine ⟨positive, denotes_call isBase (analyticAt_log positive) ?_⟩
  filter_upwards [eventually_gt_nhds positive] with u positiveU
  rw [function_ln, if_pos positiveU]

include distinct in
/-- The derivative of a power, for all four cases of the rule. -/
theorem differentiates_pow
    (isBase : reading.Denotes base f point)
    (isExponent : reading.Denotes exponent g point)
    (isBaseDerivative : reading.Denotes baseDerivative (deriv f) point)
    (isExponentDerivative : reading.Denotes exponentDerivative (deriv g) point)
    (treeDefined : reading.DefinedAt point (.pow base exponent))
    (defined :
      reading.DefinedAt point
        (derivativePow reading.symbols base exponent baseDerivative exponentDerivative)) :
    reading.Differentiates point (.pow base exponent)
      (derivativePow reading.symbols base exponent baseDerivative exponentDerivative) := by
  rw [derivativePow] at defined ⊢
  split_ifs at defined ⊢ with bothZero exponentZero baseZero
  · obtain ⟨baseZero, exponentZero⟩ := Bool.and_eq_true_iff.mp bothZero
    exact differentiates_pow_of_constant isBase isExponent
      (isBaseDerivative.eventually_zero baseZero)
      (isExponentDerivative.eventually_zero exponentZero) treeDefined
  · apply differentiates_pow_of_constant_exponent isBase isExponent isBaseDerivative
      (isExponentDerivative.eventually_zero exponentZero)
    exact definedAt_mkMul_iff.mp defined _ (by simp)
  · obtain ⟨positive, isLogarithm⟩ :=
      denotes_ln distinct isBase (definedAt_mkMul_iff.mp defined _ (by simp))
    have isPower := denotes_pow_of_pos isBase isExponent positive
    refine ⟨_, isPower, ?_⟩
    have product :=
      denotes_mkMul (.cons isPower (.cons isLogarithm (.cons isExponentDerivative .nil)))
    refine product.congr ?_
    filter_upwards [isBase.analytic.eventually_analyticAt,
      isExponent.analytic.eventually_analyticAt, isBaseDerivative.eventually_zero baseZero,
      isBase.analytic.continuousAt.eventually_const_lt positive]
      with y analyticF analyticG flatY positiveY
    have rule :=
      hasDerivAt_exp_mul_log analyticF.differentiableAt.hasDerivAt
        analyticG.differentiableAt.hasDerivAt positiveY
    rw [rule.deriv, flatY]
    simp only [valuesAt, List.map_cons, List.map_nil, List.prod_cons, List.prod_nil, mul_one]
    ring
  · have parts := definedAt_mkMul_iff.mp defined
    have inner := definedAt_mkAdd_iff.mp (parts _ (by simp; right; rfl))
    have first := definedAt_mkMul_iff.mp (inner _ List.mem_cons_self)
    obtain ⟨positive, isLogarithm⟩ := denotes_ln distinct isBase (first _ (by simp))
    have isPower := denotes_pow_of_pos isBase isExponent positive
    have isInverse :
        reading.Denotes (.pow base (.num (-1))) (fun y => f y ^ (-1 : ℤ)) point := by
      apply denotes_pow_of_integer isBase (denotes_num (-1)) _ (Or.inl positive.ne')
      exact Filter.Eventually.of_forall fun _ => by norm_num
    refine ⟨_, isPower, ?_⟩
    have total :=
      denotes_mkMul (.cons isPower
        (.cons
          (denotes_mkAdd
            (.cons (denotes_mkMul (.cons isExponentDerivative (.cons isLogarithm .nil)))
              (.cons
                (denotes_mkMul
                  (.cons isExponent (.cons isBaseDerivative (.cons isInverse .nil)))) .nil)))
          .nil))
    refine total.congr ?_
    filter_upwards [isBase.analytic.eventually_analyticAt,
      isExponent.analytic.eventually_analyticAt,
      isBase.analytic.continuousAt.eventually_const_lt positive]
      with y analyticF analyticG positiveY
    have rule :=
      hasDerivAt_exp_mul_log analyticF.differentiableAt.hasDerivAt
        analyticG.differentiableAt.hasDerivAt positiveY
    rw [rule.deriv]
    simp only [valuesAt, List.map_cons, List.map_nil, List.prod_cons, List.prod_nil, mul_one,
      List.sum_cons, List.sum_nil, add_zero, zpow_neg_one]
    ring

end Powers

/-- A hook returns the partial derivatives of its head's function along analytic arguments. -/
def HookDenotes
    (reading : RealReading)
    (point : ℝ)
    (head : Symbol)
    (hook : DerivativeHook) : Prop :=
  ∀ {arguments partials : List AtomTree} {functions : List (ℝ → ℝ)},
    hook arguments = .ok partials →
    List.Forall₂ (fun tree f => reading.Denotes tree f point) arguments functions →
    reading.DefinedAt point (.func head arguments) →
    (∀ outer ∈ partials, reading.DefinedAt point outer) →
    ∃ f slopes,
      reading.Denotes (.func head arguments) f point ∧
        List.Forall₂ (fun outer slope => reading.Denotes outer slope point) partials slopes ∧
        deriv f =ᶠ[𝓝 point]
          fun y => (List.zipWith (fun slope g => slope y * deriv g y) slopes functions).sum

/-- A hook for one argument is right if its partial derivative is. -/
theorem hookDenotes_unaryHook
    {head : Symbol}
    {name : SymbolTable.Text}
    {partialOf : AtomTree → AtomTree}
    (chain :
      ∀ {argument : AtomTree} {g : ℝ → ℝ},
        reading.Denotes argument g point →
        reading.DefinedAt point (.func head [argument]) →
        ∃ outer slope : ℝ → ℝ,
          reading.Denotes (.func head [argument]) (fun y => outer (g y)) point ∧
            reading.Denotes (partialOf argument) (fun y => slope (g y)) point ∧
            ∀ᶠ u in 𝓝 (g point), HasDerivAt outer (slope u) u) :
    reading.HookDenotes point head (unaryHook name partialOf) := by
  intro arguments partials functions returned argumentsDenote defined _
  obtain ⟨argument, rfl, rfl⟩ := unaryHook_eq_ok returned
  cases argumentsDenote with
  | @cons _ g _ _ first later =>
      cases later
      obtain ⟨outer, slope, isCall, isPartial, hasSlope⟩ := chain first defined
      refine ⟨_, [fun y => slope (g y)], isCall, .cons isPartial .nil, ?_⟩
      filter_upwards [first.analytic.eventually_analyticAt,
        first.analytic.continuousAt.eventually hasSlope] with y analyticY hasSlopeY
      have composed : HasDerivAt (fun z => outer (g z)) (slope (g y) * deriv g y) y :=
        hasSlopeY.comp y analyticY.differentiableAt.hasDerivAt
      rw [composed.deriv]
      simp

/-- The built-in hooks are right. -/
theorem hookDenotes_of_isBuiltin
    (distinct : reading.symbols.Distinct)
    {head : Symbol}
    {hook : DerivativeHook}
    (builtin : IsBuiltin reading.symbols head hook) :
    reading.HookDenotes point head hook := by
  have values := realFunction_builtin distinct reading.other
  have sine : ∀ {argument : AtomTree} {g : ℝ → ℝ}, reading.Denotes argument g point →
      reading.Denotes (.func reading.symbols.sin [argument]) (fun y => Real.sin (g y)) point :=
    fun isArgument =>
      denotes_call isArgument Real.analyticAt_sin
        (Filter.Eventually.of_forall fun u => (values u).1)
  have cosine : ∀ {argument : AtomTree} {g : ℝ → ℝ}, reading.Denotes argument g point →
      reading.Denotes (.func reading.symbols.cos [argument]) (fun y => Real.cos (g y)) point :=
    fun isArgument =>
      denotes_call isArgument Real.analyticAt_cos
        (Filter.Eventually.of_forall fun u => (values u).2.1)
  cases builtin with
  | sin =>
      apply hookDenotes_unaryHook
      intro argument g isArgument _
      exact ⟨Real.sin, Real.cos, sine isArgument, cosine isArgument,
        Filter.Eventually.of_forall Real.hasDerivAt_sin⟩
  | cos =>
      apply hookDenotes_unaryHook
      intro argument g isArgument _
      refine ⟨Real.cos, fun u => -Real.sin u, cosine isArgument, ?_,
        Filter.Eventually.of_forall Real.hasDerivAt_cos⟩
      have negated := denotes_mkMul (.cons (denotes_num (-1)) (.cons (sine isArgument) .nil))
      apply negated.congr
      apply Filter.Eventually.of_forall
      intro y
      simp [valuesAt]
  | exp =>
      apply hookDenotes_unaryHook
      intro argument g isArgument _
      have exponential :
          reading.Denotes (.func reading.symbols.exp [argument])
            (fun y => Real.exp (g y)) point :=
        denotes_call isArgument analyticAt_rexp
          (Filter.Eventually.of_forall fun u => (values u).2.2.1)
      exact ⟨Real.exp, Real.exp, exponential, exponential,
        Filter.Eventually.of_forall Real.hasDerivAt_exp⟩
  | ln =>
      apply hookDenotes_unaryHook
      intro argument g isArgument defined
      obtain ⟨positive, isLogarithm⟩ := denotes_ln distinct isArgument defined
      refine ⟨Real.log, fun u => u ^ (-1 : ℤ), isLogarithm, ?_, ?_⟩
      · apply denotes_pow_of_integer isArgument (denotes_num (-1)) _ (Or.inl positive.ne')
        exact Filter.Eventually.of_forall fun _ => by norm_num
      · filter_upwards [eventually_ne_nhds positive.ne'] with u nonzeroU
        rw [zpow_neg_one]
        exact Real.hasDerivAt_log nonzeroU

/-- The terms of the chain rule denote products of slopes and derivatives. -/
theorem denotes_chainTerms
    {partials deriveds : List AtomTree}
    {slopes functions : List (ℝ → ℝ)}
    (partialsDenote :
      List.Forall₂ (fun outer slope => reading.Denotes outer slope point) partials slopes)
    (allDerived :
      List.Forall₂ (fun derived f => reading.Denotes derived f point) deriveds
        (functions.map deriv)) :
    List.Forall₂ (fun term f => reading.Denotes term f point)
      (List.zipWith (fun outer inner => mkMul [outer, inner]) partials deriveds)
      (List.zipWith (fun slope g y => slope y * deriv g y) slopes functions) := by
  induction partialsDenote generalizing deriveds functions with
  | nil =>
      exact .nil
  | @cons outer slope partials slopes first _ inductionHypothesis =>
      cases functions with
      | nil =>
          cases allDerived
          exact .nil
      | cons g functions =>
          cases allDerived with
          | @cons derived _ deriveds _ derivedDenotes laterDerived =>
              refine .cons ?_ (inductionHypothesis laterDerived)
              apply (denotes_mkMul (.cons first (.cons derivedDenotes .nil))).congr
              apply Filter.Eventually.of_forall
              intro y
              simp [valuesAt]

/-- The parts of the terms of the chain rule have values when the terms have. -/
theorem definedAt_of_chainTerms
    {partials deriveds : List AtomTree}
    (sameLength : partials.length = deriveds.length)
    (all :
      ∀ term ∈ List.zipWith (fun outer inner => mkMul [outer, inner]) partials deriveds,
        reading.DefinedAt point term) :
    (∀ outer ∈ partials, reading.DefinedAt point outer) ∧
      ∀ inner ∈ deriveds, reading.DefinedAt point inner := by
  induction partials generalizing deriveds with
  | nil =>
      rw [List.length_nil, eq_comm, List.length_eq_zero_iff] at sameLength
      subst sameLength
      exact ⟨List.forall_mem_nil _, List.forall_mem_nil _⟩
  | cons outer partials inductionHypothesis =>
      cases deriveds with
      | nil =>
          cases sameLength
      | cons inner deriveds =>
          rw [List.zipWith_cons_cons, List.forall_mem_cons] at all
          have factors := definedAt_mkMul_iff.mp all.1
          obtain ⟨outers, inners⟩ :=
            inductionHypothesis (Nat.succ.inj sameLength) all.2
          exact ⟨List.forall_mem_cons.mpr ⟨factors outer List.mem_cons_self, outers⟩,
            List.forall_mem_cons.mpr ⟨factors inner (by simp), inners⟩⟩

/-- All parts of a derivative by the chain rule have values when it has. -/
theorem definedAt_of_chainRule
    {partials deriveds : List AtomTree}
    (sameLength : partials.length = deriveds.length)
    (defined : reading.DefinedAt point (chainRule partials deriveds)) :
    (∀ outer ∈ partials, reading.DefinedAt point outer) ∧
      ∀ inner ∈ deriveds, reading.DefinedAt point inner := by
  rw [chainRule] at defined
  split_ifs at defined with noArguments
  · rw [List.isEmpty_iff] at noArguments
    subst noArguments
    rw [List.length_nil, List.length_eq_zero_iff] at sameLength
    subst sameLength
    exact ⟨List.forall_mem_nil _, List.forall_mem_nil _⟩
  · exact definedAt_of_chainTerms sameLength (definedAt_mkAdd_iff.mp defined)

/-- The derivatives of base and exponent have values when that of the power has. -/
theorem definedAt_of_derivativePow
    {symbols : CalculusSymbols}
    {base exponent baseDerivative exponentDerivative : AtomTree}
    (defined :
      reading.DefinedAt point
        (derivativePow symbols base exponent baseDerivative exponentDerivative)) :
    reading.DefinedAt point baseDerivative ∧ reading.DefinedAt point exponentDerivative := by
  rw [derivativePow] at defined
  split_ifs at defined with bothZero exponentZero baseZero
  · obtain ⟨baseZero, exponentZero⟩ := Bool.and_eq_true_iff.mp bothZero
    exact ⟨definedAt_of_isZero baseZero, definedAt_of_isZero exponentZero⟩
  · exact ⟨definedAt_mkMul_iff.mp defined _ (by simp), definedAt_of_isZero exponentZero⟩
  · exact ⟨definedAt_of_isZero baseZero, definedAt_mkMul_iff.mp defined _ (by simp)⟩
  · have parts := definedAt_mkMul_iff.mp defined
    have inner := definedAt_mkAdd_iff.mp (parts _ (List.mem_cons_of_mem _ List.mem_cons_self))
    exact ⟨definedAt_mkMul_iff.mp (inner _ (List.mem_cons_of_mem _ List.mem_cons_self)) _
        (by simp),
      definedAt_mkMul_iff.mp (inner _ List.mem_cons_self) _ (by simp)⟩

variable {table : Snapshot} {registry : HookRegistry}

/-- Each child and its derivative, from those of all. -/
private theorem differentiates_children
    {children deriveds : List AtomTree}
    (all :
      ∀ child ∈ children, ∀ derived : AtomTree,
        derivativeImpl table reading.symbols registry reading.variable_ child = .ok derived →
          reading.DefinedAt point child →
          reading.DefinedAt point derived →
          reading.Differentiates point child derived)
    (returned :
      derivativeAll table reading.symbols registry reading.variable_ children = .ok deriveds)
    (childrenDefined : ∀ child ∈ children, reading.DefinedAt point child)
    (derivedsDefined : ∀ derived ∈ deriveds, reading.DefinedAt point derived) :
    List.Forall₂ (reading.Differentiates point) children deriveds := by
  have derivatives := forall₂_of_derivativeAll returned
  clear returned
  induction derivatives with
  | nil =>
      exact .nil
  | @cons child derived children deriveds first _ inductionHypothesis =>
      rw [List.forall_mem_cons] at all childrenDefined derivedsDefined
      exact .cons (all.1 derived first childrenDefined.1 derivedsDefined.1)
        (inductionHypothesis all.2 childrenDefined.2 derivedsDefined.2)

/-- The chain rule for a call. -/
private theorem differentiates_func
    {head : Symbol}
    {hook : DerivativeHook}
    (hookDenotes : reading.HookDenotes point head hook)
    {arguments partials deriveds : List AtomTree}
    (returned : hook arguments = .ok partials)
    (sameLength : partials.length = arguments.length)
    (treeDefined : reading.DefinedAt point (.func head arguments))
    (partialsDefined : ∀ outer ∈ partials, reading.DefinedAt point outer)
    (all : List.Forall₂ (reading.Differentiates point) arguments deriveds) :
    reading.Differentiates point (.func head arguments) (chainRule partials deriveds) := by
  obtain ⟨functions, allDenote, allDerived⟩ := exists_functions all
  obtain ⟨f, slopes, isCall, partialsDenote, slope_eq⟩ :=
    hookDenotes returned allDenote treeDefined partialsDefined
  refine ⟨f, isCall, ?_⟩
  rw [chainRule]
  split_ifs with noArguments
  · rw [List.isEmpty_iff] at noArguments
    subst noArguments
    cases all
    cases allDenote
    apply (denotes_num 0).congr
    filter_upwards [slope_eq] with y slopeY
    rw [slopeY]
    simp
  · apply (denotes_mkAdd (denotes_chainTerms partialsDenote allDerived)).congr
    filter_upwards [slope_eq] with y slopeY
    rw [slopeY, valuesAt, List.map_zipWith]

/-- The symbolic derivative of an atom denotes the derivative of its function. -/
theorem differentiates_of_derivativeImpl
    (distinct : reading.symbols.Distinct)
    (hooks :
      ∀ head hook, registry.get head = some hook → reading.HookDenotes point head hook)
    (returned :
      derivativeImpl table reading.symbols registry reading.variable_ tree = .ok derived)
    (treeDefined : reading.DefinedAt point tree)
    (derivedDefined : reading.DefinedAt point derived) :
    reading.Differentiates point tree derived := by
  induction tree generalizing derived with
  | num value =>
      cases returned
      refine ⟨_, denotes_num value, (denotes_num 0).congr ?_⟩
      apply Filter.Eventually.of_forall
      intro y
      simp
  | var symbol =>
      cases returned
      by_cases same : symbol = reading.variable_
      · subst same
        refine ⟨_, denotes_variable, ?_⟩
        rw [if_pos rfl]
        apply (denotes_num 1).congr
        apply Filter.Eventually.of_forall
        intro y
        simp
      · refine ⟨_, denotes_other same, ?_⟩
        rw [if_neg same]
        apply (denotes_num 0).congr
        apply Filter.Eventually.of_forall
        intro y
        simp
  | add terms inductionHypothesis =>
      obtain ⟨deriveds, allReturned, rfl⟩ := map_eq_ok.mp returned
      have all :=
        differentiates_children (fun term member _ => inductionHypothesis term member)
          allReturned (definedAt_add_iff.mp treeDefined)
          (definedAt_mkAdd_iff.mp derivedDefined)
      obtain ⟨functions, allDenote, allDerived⟩ := exists_functions all
      exact ⟨_, denotes_add allDenote,
        (denotes_mkAdd allDerived).congr (deriv_sum_eq allDenote).symm⟩
  | mul factors inductionHypothesis =>
      obtain ⟨deriveds, allReturned, rfl⟩ := map_eq_ok.mp returned
      have lengths := (forall₂_of_derivativeAll allReturned).length_eq
      have all :=
        differentiates_children (fun factor member _ => inductionHypothesis factor member)
          allReturned (definedAt_mul_iff.mp treeDefined)
          (definedAt_of_productTerms lengths.symm (definedAt_mkAdd_iff.mp derivedDefined))
      obtain ⟨functions, allDenote, allDerived⟩ := exists_functions all
      obtain ⟨terms, termsDenote, sum⟩ := exists_productTerms .nil allDenote allDerived
      refine ⟨_, denotes_mul allDenote, (denotes_mkAdd termsDenote).congr ?_⟩
      filter_upwards [sum] with y sumY
      rw [sumY]
      simp [valuesAt]
  | pow base exponent baseHypothesis exponentHypothesis =>
      obtain ⟨baseDerivative, baseReturned, rest⟩ := bind_eq_ok.mp returned
      obtain ⟨exponentDerivative, exponentReturned, ended⟩ := bind_eq_ok.mp rest
      cases ended
      obtain ⟨baseDefined, exponentDefined⟩ := treeDefined.pow
      obtain ⟨baseDerivativeDefined, exponentDerivativeDefined⟩ :=
        definedAt_of_derivativePow derivedDefined
      obtain ⟨f, isBase, isBaseDerivative⟩ :=
        baseHypothesis baseReturned baseDefined baseDerivativeDefined
      obtain ⟨g, isExponent, isExponentDerivative⟩ :=
        exponentHypothesis exponentReturned exponentDefined exponentDerivativeDefined
      exact differentiates_pow distinct isBase isExponent isBaseDerivative
        isExponentDerivative treeDefined derivedDefined
  | func head arguments inductionHypothesis =>
      rw [derivativeImpl] at returned
      cases found : registry.get head with
      | none =>
          rw [found] at returned
          cases returned
      | some hook =>
          rw [found] at returned
          obtain ⟨partials, hookReturned, rest⟩ := bind_eq_ok.mp returned
          split_ifs at rest with wrongLength
          have sameLength := not_not.mp wrongLength
          obtain ⟨deriveds, allReturned, rfl⟩ := map_eq_ok.mp rest
          have lengths := (forall₂_of_derivativeAll allReturned).length_eq
          have parts :
              (∀ outer ∈ partials, reading.DefinedAt point outer) ∧
                ∀ inner ∈ deriveds, reading.DefinedAt point inner :=
            definedAt_of_chainRule (sameLength.trans lengths) derivedDefined
          have all :=
            differentiates_children
              (fun argument member _ => inductionHypothesis argument member) allReturned
              treeDefined.arguments parts.2
          exact differentiates_func (hooks head hook found) hookReturned sameLength
            treeDefined parts.1 all

/-- A caller's hook has been registered by one of the calls. -/
theorem mem_of_callerHook
    {head : Symbol}
    {hook : DerivativeHook}
    {calls : List HookCall}
    (found : callerHook head calls = some hook) :
    .registerDerivativeHook head hook ∈ calls := by
  induction calls with
  | nil =>
      cases found
  | cons call rest inductionHypothesis =>
      rw [callerHook, Option.or_eq_some_iff] at found
      rcases found with later | ⟨_, first⟩
      · exact List.mem_cons_of_mem _ (inductionHypothesis later)
      · cases call with
        | derivative expr variable_ =>
            cases first
        | registerDerivativeHook other registered =>
            rw [HookCall.hookFor] at first
            split_ifs at first with same
            cases first
            rw [same]
            exact List.mem_cons_self

/-- The hook that a fresh registry installs for a head is a built-in one. -/
theorem isBuiltin_of_builtinHook
    {symbols : CalculusSymbols}
    {head : Symbol}
    {hook : DerivativeHook}
    (found : builtinHook symbols head = some hook) :
    IsBuiltin symbols head hook := by
  have nothing : HookRegistry.fresh.get head = none := rfl
  simp only [builtinHook, HookRegistry.registerBuiltinHooks, HookRegistry.get_set,
    nothing] at found
  split_ifs at found with isLn isExp isCos isSin
  · cases found
    exact isLn ▸ .ln
  · cases found
    exact isExp ▸ .exp
  · cases found
    exact isCos ▸ .cos
  · cases found
    exact isSin ▸ .sin

/-- The hooks in use are built-in ones, or registered by callers. -/
theorem hookDenotes_of_registryInUse
    (distinct : reading.symbols.Distinct)
    {calls : List HookCall}
    (registered :
      ∀ head hook,
        .registerDerivativeHook head hook ∈ calls → reading.HookDenotes point head hook)
    {head : Symbol}
    {hook : DerivativeHook}
    (found : (registryInUse table reading.symbols calls).get head = some hook) :
    reading.HookDenotes point head hook := by
  rw [get_registryInUse, Option.or_eq_some_iff] at found
  rcases found with late | ⟨_, rest⟩
  · exact registered head hook
      ((List.dropWhile_sublist _).subset (mem_of_callerHook late))
  · rcases Option.or_eq_some_iff.mp rest with builtin | ⟨_, early⟩
    · exact hookDenotes_of_isBuiltin distinct (isBuiltin_of_builtinHook builtin)
    · exact registered head hook
        ((List.takeWhile_sublist _).subset (mem_of_callerHook early))

/--
After any calls that registered right hooks only, `derivative` returns an atom that denotes
the derivative, near each point where the atom and the derivative both have values.
-/
theorem derivative_denotes
    (distinct : reading.symbols.Distinct)
    {calls : List HookCall}
    (registered :
      ∀ head hook,
        .registerDerivativeHook head hook ∈ calls → reading.HookDenotes point head hook)
    (returned :
      (derivative table reading.symbols
        (Transition.run (HookCall.step table reading.symbols) .fresh calls) tree
        reading.variable_).1 = .ok derived)
    {value slope : ℝ}
    (isValue : reading.valueAt tree point = some value)
    (isSlope : reading.valueAt derived point = some slope) :
    reading.Denotes tree (reading.function tree) point ∧
      reading.Denotes derived (deriv (reading.function tree)) point ∧
      HasDerivAt (reading.function tree) slope point := by
  obtain ⟨f, denotes, derivedDenotes⟩ :=
    differentiates_of_derivativeImpl distinct
      (fun _ _ found => hookDenotes_of_registryInUse distinct registered found) returned
      (Option.isSome_iff_exists.mpr ⟨value, isValue⟩)
      (Option.isSome_iff_exists.mpr ⟨slope, isSlope⟩)
  have same := denotes.eventuallyEq_function
  have slope_eq : deriv (reading.function tree) point = slope := by
    rw [← same.deriv_eq, ← Option.some_inj, ← derivedDenotes.valueAt_eq, isSlope]
  refine ⟨denotes.congr same, derivedDenotes.congr same.deriv, ?_⟩
  rw [← slope_eq]
  exact (denotes.analytic.congr same).differentiableAt.hasDerivAt

/-- `x^x`. -/
def selfPower : AtomTree :=
  .pow (.var ⟨0⟩) (.var ⟨0⟩)

/-- The derivative of `x^x`, as it is built. -/
def selfPowerDerivative : AtomTree :=
  .mul
    [.add
        [.mul [.num 1, .var ⟨0⟩, .pow (.var ⟨0⟩) (.num (-1))],
          .mul [.num 1, .func ⟨4⟩ [.var ⟨0⟩]]],
      .pow (.var ⟨0⟩) (.var ⟨0⟩)]

/-- The derivative of `x^x` at 1 is 1. -/
theorem derivative_denotes_selfPower :
    HasDerivAt (plainReading.function selfPower) 1 1 := by
  have built :
      (derivative .empty plainReading.symbols .fresh selfPower plainReading.variable_).1 =
        .ok selfPowerDerivative := by
    decide +kernel
  have isValue : plainReading.valueAt selfPower 1 = some 1 := by
    simp [selfPower, valueAt, eval, meaningAt, plainReading, realPower]
  have isSlope : plainReading.valueAt selfPowerDerivative 1 = some 1 := by
    simp [selfPowerDerivative, valueAt, eval, evalAll, meaningAt, plainReading, realPower,
      realFunction]
  have registered :
      ∀ head hook,
        HookCall.registerDerivativeHook head hook ∈ ([] : List HookCall) →
          plainReading.HookDenotes 1 head hook :=
    fun _ _ member => (List.not_mem_nil member).elim
  exact (derivative_denotes distinct_plainReading registered built isValue isSlope).2.2

end RealReading

end CalculusCore
