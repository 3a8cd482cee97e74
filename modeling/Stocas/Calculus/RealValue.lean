import Mathlib.Analysis.SpecialFunctions.Complex.Analytic
import Mathlib.Analysis.SpecialFunctions.ExpDeriv
import Mathlib.Analysis.SpecialFunctions.Pow.Real
import Mathlib.Analysis.SpecialFunctions.Trigonometric.Deriv
import Stocas.Atom.PrintedValue
import Stocas.Calculus.Derivative

namespace CalculusCore

open AtomCore (AtomTree Interpretation)
open AtomCore.AtomTree (eval eval_mkAdd_eq eval_mkMul_eq evalAll mkAdd mkMul)
open SymbolTable (Symbol)
open scoped Topology

/-!
# The real function of an atom

Over the real numbers the heads `sin`, `cos`, `exp` and `ln` have their usual meaning,
and an atom is a partial function of its variable.  Around a point where an atom denotes
an analytic function its jet there is a Taylor series.
-/

section Meaning

/-- The heads have different symbols. -/
def CalculusSymbols.Distinct (symbols : CalculusSymbols) : Prop :=
  [symbols.sin, symbols.cos, symbols.exp, symbols.ln].Nodup

instance (symbols : CalculusSymbols) : Decidable symbols.Distinct :=
  inferInstanceAs (Decidable (List.Nodup _))

open Classical in
/-- Real powers: all of a positive base, and integer ones where they are defined. -/
noncomputable def realPower (base exponent : ℝ) : Option ℝ :=
  if 0 < base then
    some (base ^ exponent)
  else if ∃ n : ℤ, exponent = n ∧ (base ≠ 0 ∨ 0 ≤ n) then
    some (base ^ ⌊exponent⌋)
  else
    none

/-- The functions of the built-in heads; other heads have a given meaning. -/
noncomputable def realFunction
    (symbols : CalculusSymbols)
    (other : Symbol → List ℝ → Option ℝ)
    (head : Symbol) :
    List ℝ → Option ℝ
  | [argument] =>
      if head = symbols.sin then
        some (Real.sin argument)
      else if head = symbols.cos then
        some (Real.cos argument)
      else if head = symbols.exp then
        some (Real.exp argument)
      else if head = symbols.ln then
        if 0 < argument then some (Real.log argument) else none
      else
        other head [argument]
  | arguments => other head arguments

/-- What an atom is read with: the heads, the other variables, and the variable. -/
structure RealReading where
  symbols : CalculusSymbols
  other : Symbol → List ℝ → Option ℝ
  values : Symbol → ℝ
  variable_ : Symbol

/-- Four symbols after the variable, and nothing else. -/
def plainReading : RealReading where
  symbols :=
    { sin := ⟨1⟩
      cos := ⟨2⟩
      exp := ⟨3⟩
      ln := ⟨4⟩ }
  other := fun _ _ => none
  values := fun _ => 0
  variable_ := ⟨0⟩

theorem distinct_plainReading :
    plainReading.symbols.Distinct := by
  decide

namespace RealReading

/-- The meaning in which the variable has a given value. -/
noncomputable def meaningAt (reading : RealReading) (y : ℝ) : Interpretation ℝ where
  variableValue := Function.update reading.values reading.variable_ y
  function := realFunction reading.symbols reading.other
  power := realPower

/-- The value of an atom where the variable has a given value. -/
noncomputable def valueAt (reading : RealReading) (tree : AtomTree) (y : ℝ) : Option ℝ :=
  eval (reading.meaningAt y) tree

/-- The function of an atom, with no particular value where it is not defined. -/
noncomputable def function (reading : RealReading) (tree : AtomTree) (y : ℝ) : ℝ :=
  (reading.valueAt tree y).getD 0

/-- The atom is defined near the point, and equal to a function that is analytic there. -/
structure Denotes
    (reading : RealReading)
    (tree : AtomTree)
    (f : ℝ → ℝ)
    (point : ℝ) : Prop where
  analytic : AnalyticAt ℝ f point
  defined : ∀ᶠ y in 𝓝 point, reading.valueAt tree y = some (f y)

end RealReading

end Meaning

/-- Each built-in head has its own function. -/
theorem realFunction_builtin
    {symbols : CalculusSymbols}
    (distinct : symbols.Distinct)
    (other : Symbol → List ℝ → Option ℝ)
    (u : ℝ) :
    realFunction symbols other symbols.sin [u] = some (Real.sin u) ∧
      realFunction symbols other symbols.cos [u] = some (Real.cos u) ∧
      realFunction symbols other symbols.exp [u] = some (Real.exp u) ∧
      realFunction symbols other symbols.ln [u] =
        if 0 < u then some (Real.log u) else none := by
  rw [CalculusSymbols.Distinct] at distinct
  simp only [List.nodup_cons, List.mem_cons, List.not_mem_nil, or_false, not_or] at distinct
  obtain ⟨⟨sinCos, sinExp, sinLn⟩, ⟨cosExp, cosLn⟩, expLn, _⟩ := distinct
  refine ⟨?_, ?_, ?_, ?_⟩
  · rw [realFunction, if_pos rfl]
  · rw [realFunction, if_neg (Ne.symm sinCos), if_pos rfl]
  · rw [realFunction, if_neg (Ne.symm sinExp), if_neg (Ne.symm cosExp), if_pos rfl]
  · rw [realFunction, if_neg (Ne.symm sinLn), if_neg (Ne.symm cosLn),
      if_neg (Ne.symm expLn), if_pos rfl]

theorem realPower_of_pos
    {base : ℝ}
    (positive : 0 < base)
    (exponent : ℝ) :
    realPower base exponent = some (base ^ exponent) :=
  if_pos positive

/-- An integer power is that of the field, whatever the sign of the base. -/
theorem realPower_intCast
    {base : ℝ}
    {n : ℤ}
    (regular : base ≠ 0 ∨ 0 ≤ n) :
    realPower base n = some (base ^ n) := by
  by_cases positive : 0 < base
  · rw [realPower_of_pos positive, Real.rpow_intCast]
  · rw [realPower, if_neg positive, if_pos ⟨n, rfl, regular⟩, Int.floor_intCast]

/-- A power that is defined has a positive base or an integer exponent. -/
theorem realPower_cases
    {base exponent value : ℝ}
    (defined : realPower base exponent = some value) :
    0 < base ∨ ∃ n : ℤ, exponent = n ∧ (base ≠ 0 ∨ 0 ≤ n) := by
  by_cases positive : 0 < base
  · exact Or.inl positive
  · by_cases integer : ∃ n : ℤ, exponent = n ∧ (base ≠ 0 ∨ 0 ≤ n)
    · exact Or.inr integer
    · rw [realPower, if_neg positive, if_neg integer] at defined
      cases defined

namespace RealReading

variable {reading : RealReading} {tree : AtomTree} {f g : ℝ → ℝ} {point : ℝ}

theorem Denotes.valueAt_eq
    (denotes : reading.Denotes tree f point) :
    reading.valueAt tree point = some (f point) :=
  denotes.defined.self_of_nhds

theorem Denotes.congr
    (denotes : reading.Denotes tree f point)
    (same : f =ᶠ[𝓝 point] g) :
    reading.Denotes tree g point where
  analytic := denotes.analytic.congr same
  defined := by
    filter_upwards [denotes.defined, same] with y defined sameY
    rw [defined, sameY]

/-- An atom that denotes a function does so at all points near by. -/
theorem Denotes.eventually
    (denotes : reading.Denotes tree f point) :
    ∀ᶠ y in 𝓝 point, reading.Denotes tree f y := by
  filter_upwards [denotes.analytic.eventually_analyticAt, denotes.defined.eventually_nhds]
    with y analytic defined
  exact ⟨analytic, defined⟩

/-- Near the point there is only one such function. -/
theorem Denotes.unique
    (first : reading.Denotes tree f point)
    (second : reading.Denotes tree g point) :
    f =ᶠ[𝓝 point] g := by
  filter_upwards [first.defined, second.defined] with y firstValue secondValue
  rw [firstValue] at secondValue
  exact Option.some.inj secondValue

theorem Denotes.eventuallyEq_function
    (denotes : reading.Denotes tree f point) :
    f =ᶠ[𝓝 point] reading.function tree := by
  filter_upwards [denotes.defined] with y defined
  rw [function, defined, Option.getD_some]

theorem denotes_num
    (value : ℚ) :
    reading.Denotes (.num value) (fun _ => (value : ℝ)) point where
  analytic := analyticAt_const
  defined := Filter.Eventually.of_forall fun _ => rfl

theorem denotes_variable :
    reading.Denotes (.var reading.variable_) (fun y => y) point where
  analytic := analyticAt_id
  defined := by
    apply Filter.Eventually.of_forall
    intro y
    simp [valueAt, eval, meaningAt]

theorem denotes_other
    {symbol : Symbol}
    (other : symbol ≠ reading.variable_) :
    reading.Denotes (.var symbol) (fun _ => reading.values symbol) point where
  analytic := analyticAt_const
  defined := by
    apply Filter.Eventually.of_forall
    intro y
    simp [valueAt, eval, meaningAt, other]

/-- The values of several functions at one point. -/
def valuesAt (functions : List (ℝ → ℝ)) (y : ℝ) : List ℝ :=
  functions.map fun f => f y

section Several

variable {trees : List AtomTree} {functions : List (ℝ → ℝ)}

/-- Several atoms have their values together near the point. -/
theorem eventually_evalAll
    (all : List.Forall₂ (fun tree f => reading.Denotes tree f point) trees functions) :
    ∀ᶠ y in 𝓝 point,
      evalAll (reading.meaningAt y) trees = some (valuesAt functions y) := by
  induction all with
  | nil =>
      exact Filter.Eventually.of_forall fun _ => rfl
  | cons first _ inductionHypothesis =>
      filter_upwards [first.defined, inductionHypothesis] with y firstValue laterValues
      rw [valueAt] at firstValue
      rw [evalAll, firstValue, laterValues]
      rfl

theorem analyticAt_sum
    (all : List.Forall₂ (fun tree f => reading.Denotes tree f point) trees functions) :
    AnalyticAt ℝ (fun y => (valuesAt functions y).sum) point := by
  induction all with
  | nil =>
      exact analyticAt_const
  | cons first _ inductionHypothesis =>
      simp only [valuesAt, List.map_cons, List.sum_cons]
      exact first.analytic.fun_add inductionHypothesis

theorem analyticAt_prod
    (all : List.Forall₂ (fun tree f => reading.Denotes tree f point) trees functions) :
    AnalyticAt ℝ (fun y => (valuesAt functions y).prod) point := by
  induction all with
  | nil =>
      exact analyticAt_const
  | cons first _ inductionHypothesis =>
      simp only [valuesAt, List.map_cons, List.prod_cons]
      exact first.analytic.fun_mul inductionHypothesis

theorem denotes_add
    (all : List.Forall₂ (fun tree f => reading.Denotes tree f point) trees functions) :
    reading.Denotes (.add trees) (fun y => (valuesAt functions y).sum) point where
  analytic := analyticAt_sum all
  defined := by
    filter_upwards [eventually_evalAll all] with y values
    rw [valueAt, eval, values, Option.map_some]

theorem denotes_mul
    (all : List.Forall₂ (fun tree f => reading.Denotes tree f point) trees functions) :
    reading.Denotes (.mul trees) (fun y => (valuesAt functions y).prod) point where
  analytic := analyticAt_prod all
  defined := by
    filter_upwards [eventually_evalAll all] with y values
    rw [valueAt, eval, values, Option.map_some]

theorem denotes_mkAdd
    (all : List.Forall₂ (fun tree f => reading.Denotes tree f point) trees functions) :
    reading.Denotes (mkAdd trees) (fun y => (valuesAt functions y).sum) point where
  analytic := analyticAt_sum all
  defined := by
    filter_upwards [eventually_evalAll all] with y values
    rw [valueAt, eval_mkAdd_eq, values, Option.map_some]

theorem denotes_mkMul
    (all : List.Forall₂ (fun tree f => reading.Denotes tree f point) trees functions) :
    reading.Denotes (mkMul trees) (fun y => (valuesAt functions y).prod) point where
  analytic := analyticAt_prod all
  defined := by
    filter_upwards [eventually_evalAll all] with y values
    rw [valueAt, eval_mkMul_eq, values, Option.map_some]

end Several

section Power

variable {base exponent : AtomTree}

/-- A power with a positive base. -/
theorem denotes_pow_of_pos
    (isBase : reading.Denotes base f point)
    (isExponent : reading.Denotes exponent g point)
    (positive : 0 < f point) :
    reading.Denotes (.pow base exponent) (fun y => Real.exp (g y * Real.log (f y))) point where
  analytic := (isExponent.analytic.fun_mul (isBase.analytic.log positive)).rexp'
  defined := by
    filter_upwards [isBase.defined, isExponent.defined,
      isBase.analytic.continuousAt.eventually_const_lt positive] with y baseY exponentY positiveY
    rw [valueAt] at baseY exponentY
    rw [valueAt, eval, baseY, exponentY, Option.bind_some, Option.bind_some]
    refine (realPower_of_pos positiveY (g y)).trans (congrArg some ?_)
    rw [Real.rpow_def_of_pos positiveY, mul_comm]

theorem analyticAt_zpow
    {n : ℤ}
    (analytic : AnalyticAt ℝ f point)
    (regular : f point ≠ 0 ∨ 0 ≤ n) :
    AnalyticAt ℝ (fun y => f y ^ n) point := by
  rcases regular with nonzero | natural
  · exact analytic.fun_zpow nonzero
  · exact analytic.fun_zpow_nonneg natural

/-- A power whose exponent is an integer near the point. -/
theorem denotes_pow_of_integer
    {n : ℤ}
    (isBase : reading.Denotes base f point)
    (isExponent : reading.Denotes exponent g point)
    (integer : ∀ᶠ y in 𝓝 point, g y = n)
    (regular : f point ≠ 0 ∨ 0 ≤ n) :
    reading.Denotes (.pow base exponent) (fun y => f y ^ n) point where
  analytic := analyticAt_zpow isBase.analytic regular
  defined := by
    have nearby : ∀ᶠ y in 𝓝 point, f y ≠ 0 ∨ 0 ≤ n := by
      rcases regular with nonzero | natural
      · filter_upwards [isBase.analytic.continuousAt.eventually_ne nonzero] with y nonzeroY
        exact Or.inl nonzeroY
      · exact Filter.Eventually.of_forall fun _ => Or.inr natural
    filter_upwards [isBase.defined, isExponent.defined, integer, nearby]
      with y baseY exponentY integerY regularY
    rw [valueAt] at baseY exponentY
    rw [valueAt, eval, baseY, exponentY, Option.bind_some, Option.bind_some, integerY]
    exact realPower_intCast regularY

end Power

/-- A call with one argument, of a head whose function is analytic there. -/
theorem denotes_call
    {head : Symbol}
    {argument : AtomTree}
    {outer : ℝ → ℝ}
    (isArgument : reading.Denotes argument f point)
    (analytic : AnalyticAt ℝ outer (f point))
    (isFunction :
      ∀ᶠ u in 𝓝 (f point),
        realFunction reading.symbols reading.other head [u] = some (outer u)) :
    reading.Denotes (.func head [argument]) (fun y => outer (f y)) point where
  analytic := analytic.fun_comp isArgument.analytic
  defined := by
    have along := isArgument.analytic.continuousAt.eventually isFunction
    filter_upwards [isArgument.defined, along] with y argumentY functionY
    rw [valueAt] at argumentY
    rw [valueAt, eval, evalAll, argumentY]
    exact functionY

end RealReading

end CalculusCore
