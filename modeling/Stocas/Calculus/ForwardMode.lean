import Stocas.Calculus.SeriesTaylor

namespace NumericaCore

/-!
# Forward-mode differentiation

A caller of `HyperDual` writes a formula with its operators and functions and runs it on
series.  Over the real numbers the run either differentiates the formula along the series
or throws, and it throws exactly where the formula has no value.
-/

namespace HyperDual

variable {F : Type*} [Field F] {order : ℕ}

/-- `derivative(k)`: coefficient `k` times each of `2` to `k`. -/
def derivative (series : HyperDual F order) (k : ℕ) : F :=
  (List.range (k - 1)).foldl (fun result i => result * ((i + 2 : ℕ) : F))
    (series.coefficient k)

/-- `a_0 + a_1*(x-x0) + ... + a_N*(x-x0)^N`. -/
def valueAround (series : HyperDual F order) (point x : F) : F :=
  ∑ k ∈ Finset.range (order + 1), series.coefficient k * (x - point) ^ k

/-- At the point only the constant term is left. -/
theorem valueAround_self
    (series : HyperDual F order)
    (point : F) :
    series.valueAround point point = series.coefficient 0 := by
  rw [valueAround, Finset.sum_range_succ', sub_self, pow_zero, mul_one,
    Finset.sum_eq_zero, zero_add]
  intro k _
  rw [zero_pow (Nat.succ_ne_zero k), mul_zero]

/-- A variable is the argument itself. -/
theorem valueAround_independent
    (positive : 0 < order)
    (point x : F) :
    (independent point : HyperDual F order).valueAround point x = x := by
  obtain ⟨n, rfl⟩ := Nat.exists_eq_succ_of_ne_zero positive.ne'
  have later :
      ∀ k ∈ Finset.range n,
        (independent point : HyperDual F (n + 1)).coefficient (k + 1 + 1) *
          (x - point) ^ (k + 1 + 1) = 0 := by
    intro k inRange
    have within : k + 1 + 1 ≤ n + 1 := Nat.succ_le_succ (Finset.mem_range.mp inRange)
    rw [independent, coefficient_ofCoefficients _ within, if_neg (Nat.succ_ne_zero _),
      if_neg (by omega), zero_mul]
  rw [valueAround, Finset.sum_range_succ', Finset.sum_range_succ',
    Finset.sum_eq_zero later, independent,
    coefficient_ofCoefficients _ (Nat.le_add_left 1 n),
    coefficient_ofCoefficients _ (Nat.zero_le _)]
  simp

/-- The difference is that of power series. -/
theorem Represents.sub
    {first second : HyperDual F order}
    {φ ψ : PowerSeries F}
    (isFirst : first.Represents φ)
    (isSecond : second.Represents ψ) :
    (first.sub second).Represents (φ - ψ) := by
  intro k within
  rw [HyperDual.sub, coefficient_ofCoefficients _ within, isFirst k within,
    isSecond k within, map_sub]

/-- The loop of `derivative` multiplies by a factorial. -/
theorem derivative_eq
    (series : HyperDual F order)
    (k : ℕ) :
    series.derivative k = series.coefficient k * (k.factorial : F) := by
  have loop : ∀ n : ℕ, ∀ start : F,
      (List.range n).foldl (fun result i => result * ((i + 2 : ℕ) : F)) start =
        start * ((n + 1).factorial : F) := by
    intro n start
    induction n with
    | zero =>
        simp
    | succ n inductionHypothesis =>
        rw [List.range_succ, List.foldl_append, inductionHypothesis, List.foldl_cons,
          List.foldl_nil, Nat.factorial_succ (n + 1), Nat.cast_mul,
          mul_comm ((n + 1 + 1 : ℕ) : F), mul_assoc]
  rw [derivative, loop]
  cases k with
  | zero =>
      rfl
  | succ k =>
      rfl

end HyperDual

end NumericaCore

namespace CalculusCore

open NumericaCore (DomainError HyperDual ScalarFunctions)
open NumericaCore.HyperDual (represents_constant)
open Outcome (bind_eq_ok)
open PowerSeries (C X)
open TaylorJet
open scoped Topology

section Real

variable {order : ℕ} {series : HyperDual ℝ order} {f : ℝ → ℝ} {point : ℝ}

/-- The series of a function holds its derivatives. -/
theorem derivative_of_represents
    (isSeries : series.Represents (jet f point))
    {k : ℕ}
    (within : k ≤ order) :
    series.derivative k = iteratedDeriv k f point := by
  have nonzero : (k.factorial : ℝ) ≠ 0 := Nat.cast_ne_zero.mpr (Nat.factorial_ne_zero k)
  rw [series.derivative_eq, isSeries k within, coeff_jet, div_mul_cancel₀ _ nonzero]

/-- The Taylor series of a monomial in the distance from the point. -/
theorem jet_monomial
    (coefficient : ℝ)
    (k : ℕ) :
    jet (fun y => coefficient * (y - point) ^ k) point = C coefficient * X ^ k := by
  have distance : jet (fun y => y - point) point = X := by
    simp only [sub_eq_add_neg]
    have identity : AnalyticAt ℝ (fun y : ℝ => y) point := analyticAt_id
    rw [jet_add identity analyticAt_const, jet_const, jet_id, map_neg]
    ring
  have analytic : AnalyticAt ℝ (fun y => y - point) point :=
    analyticAt_id.fun_sub analyticAt_const
  rw [jet_mul analyticAt_const (analytic.fun_pow k), jet_const, jet_pow analytic, distance]

/-- Every series is the Taylor series of its polynomial. -/
theorem represents_valueAround :
    AnalyticAt ℝ (series.valueAround point) point ∧
      series.Represents (jet (series.valueAround point) point) := by
  have partialSum : ∀ n : ℕ,
      AnalyticAt ℝ
          (fun y => ∑ k ∈ Finset.range n, series.coefficient k * (y - point) ^ k) point ∧
        jet (fun y => ∑ k ∈ Finset.range n, series.coefficient k * (y - point) ^ k) point =
          ∑ k ∈ Finset.range n, C (series.coefficient k) * X ^ k := by
    intro n
    induction n with
    | zero =>
        simp only [Finset.sum_range_zero]
        exact ⟨analyticAt_const, by rw [jet_const, map_zero]⟩
    | succ n inductionHypothesis =>
        have next :
            AnalyticAt ℝ (fun y => series.coefficient n * (y - point) ^ n) point :=
          analyticAt_const.fun_mul ((analyticAt_id.fun_sub analyticAt_const).fun_pow n)
        simp only [Finset.sum_range_succ]
        exact ⟨inductionHypothesis.1.fun_add next,
          by rw [jet_add inductionHypothesis.1 next, inductionHypothesis.2, jet_monomial]⟩
  refine ⟨(partialSum (order + 1)).1, ?_⟩
  intro k within
  have isSum : jet (series.valueAround point) point = _ := (partialSum (order + 1)).2
  have inRange : k ∈ Finset.range (order + 1) :=
    Finset.mem_range.mpr (Nat.lt_succ_of_le within)
  rw [isSum, map_sum, Finset.sum_eq_single_of_mem k inRange, PowerSeries.coeff_C_mul,
    PowerSeries.coeff_X_pow_self, mul_one]
  intro other _ different
  rw [PowerSeries.coeff_C_mul, PowerSeries.coeff_X_pow, if_neg different.symm, mul_zero]

end Real

/-- A formula that a caller writes with the operations of `HyperDual`. -/
inductive Formula (ι F : Type*) where
  | input (i : ι)
  | constant (value : F)
  | add (first second : Formula ι F)
  | sub (first second : Formula ι F)
  | mul (first second : Formula ι F)
  | div (first second : Formula ι F)
  | exp (inner : Formula ι F)
  | log (inner : Formula ι F)
  | sin (inner : Formula ι F)
  | cos (inner : Formula ι F)

namespace Formula

variable {ι : Type*} {order : ℕ}

/-- Run a formula on series. -/
def evaluate
    {F : Type*}
    [Field F]
    [DecidableEq F]
    (functions : ScalarFunctions F)
    (inputs : ι → HyperDual F order) :
    Formula ι F → Except DomainError (HyperDual F order)
  | .input i => .ok (inputs i)
  | .constant value => .ok (.constant value)
  | .add first second => do
      let left ← evaluate functions inputs first
      let right ← evaluate functions inputs second
      .ok (left.add right)
  | .sub first second => do
      let left ← evaluate functions inputs first
      let right ← evaluate functions inputs second
      .ok (left.sub right)
  | .mul first second => do
      let left ← evaluate functions inputs first
      let right ← evaluate functions inputs second
      .ok (left.mul right)
  | .div first second => do
      let left ← evaluate functions inputs first
      let right ← evaluate functions inputs second
      left.div right
  | .exp inner => do
      let series ← evaluate functions inputs inner
      .ok (series.exp functions)
  | .log inner => do
      let series ← evaluate functions inputs inner
      series.log functions
  | .sin inner => do
      let series ← evaluate functions inputs inner
      .ok (series.sin functions)
  | .cos inner => do
      let series ← evaluate functions inputs inner
      .ok (series.cos functions)

/-- The value of a formula: quotients by 0 and logarithms of other numbers than positive
ones have none. -/
noncomputable def valueAt (values : ι → ℝ) : Formula ι ℝ → Option ℝ
  | .input i => some (values i)
  | .constant value => some value
  | .add first second => do
      let left ← valueAt values first
      let right ← valueAt values second
      some (left + right)
  | .sub first second => do
      let left ← valueAt values first
      let right ← valueAt values second
      some (left - right)
  | .mul first second => do
      let left ← valueAt values first
      let right ← valueAt values second
      some (left * right)
  | .div first second => do
      let left ← valueAt values first
      let right ← valueAt values second
      if right = 0 then none else some (left / right)
  | .exp inner => do
      let u ← valueAt values inner
      some (Real.exp u)
  | .log inner => do
      let u ← valueAt values inner
      if 0 < u then some (Real.log u) else none
  | .sin inner => do
      let u ← valueAt values inner
      some (Real.sin u)
  | .cos inner => do
      let u ← valueAt values inner
      some (Real.cos u)

section Meaning

variable {curves : ι → ℝ → ℝ} {point : ℝ} {first second inner formula : Formula ι ℝ}
  {f g h : ℝ → ℝ}

/-- Near the point the formula has values, those of an analytic function. -/
structure Denotes
    (curves : ι → ℝ → ℝ)
    (point : ℝ)
    (formula : Formula ι ℝ)
    (f : ℝ → ℝ) : Prop where
  analytic : AnalyticAt ℝ f point
  defined : ∀ᶠ y in 𝓝 point, formula.valueAt (fun i => curves i y) = some (f y)

theorem Denotes.value_eq
    (denotes : Denotes curves point formula f) :
    formula.valueAt (fun i => curves i point) = some (f point) :=
  denotes.defined.self_of_nhds

/-- A node that combines two values. -/
theorem Denotes.combine
    {operation : ℝ → ℝ → Option ℝ}
    (isFirst : Denotes curves point first f)
    (isSecond : Denotes curves point second g)
    (node :
      ∀ values,
        formula.valueAt values =
          (first.valueAt values).bind fun left => (second.valueAt values).bind (operation left))
    (analytic : AnalyticAt ℝ h point)
    (near : ∀ᶠ y in 𝓝 point, operation (f y) (g y) = some (h y)) :
    Denotes curves point formula h where
  analytic := analytic
  defined := by
    filter_upwards [isFirst.defined, isSecond.defined, near] with y firstValue secondValue here
    rw [node, firstValue, secondValue]
    exact here

/-- A node that applies a function to a value. -/
theorem Denotes.apply
    {operation : ℝ → Option ℝ}
    (isInner : Denotes curves point inner f)
    (node : ∀ values, formula.valueAt values = (inner.valueAt values).bind operation)
    (analytic : AnalyticAt ℝ h point)
    (near : ∀ᶠ y in 𝓝 point, operation (f y) = some (h y)) :
    Denotes curves point formula h where
  analytic := analytic
  defined := by
    filter_upwards [isInner.defined, near] with y value here
    rw [node, value]
    exact here

/-- The run of a formula holds the Taylor series of a function that the formula denotes. -/
def Differentiates
    (curves : ι → ℝ → ℝ)
    (point : ℝ)
    (formula : Formula ι ℝ)
    (series : HyperDual ℝ order) : Prop :=
  ∃ f, Denotes curves point formula f ∧ series.Represents (jet f point)

section Nodes

variable {left right series : HyperDual ℝ order}

theorem Differentiates.add
    (isFirst : Differentiates curves point first left)
    (isSecond : Differentiates curves point second right) :
    Differentiates curves point (.add first second) (left.add right) := by
  obtain ⟨f, denotesFirst, isLeft⟩ := isFirst
  obtain ⟨g, denotesSecond, isRight⟩ := isSecond
  refine ⟨fun y => f y + g y, ?_, ?_⟩
  · exact denotesFirst.combine denotesSecond (fun _ => rfl)
      (denotesFirst.analytic.fun_add denotesSecond.analytic)
      (Filter.Eventually.of_forall fun _ => rfl)
  · rw [jet_add denotesFirst.analytic denotesSecond.analytic]
    exact isLeft.add isRight

theorem Differentiates.sub
    (isFirst : Differentiates curves point first left)
    (isSecond : Differentiates curves point second right) :
    Differentiates curves point (.sub first second) (left.sub right) := by
  obtain ⟨f, denotesFirst, isLeft⟩ := isFirst
  obtain ⟨g, denotesSecond, isRight⟩ := isSecond
  have difference : jet (fun y => f y - g y) point = jet f point - jet g point := by
    simp only [sub_eq_add_neg]
    rw [jet_add denotesFirst.analytic denotesSecond.analytic.fun_neg, jet_neg]
  refine ⟨fun y => f y - g y, ?_, ?_⟩
  · exact denotesFirst.combine denotesSecond (fun _ => rfl)
      (denotesFirst.analytic.fun_sub denotesSecond.analytic)
      (Filter.Eventually.of_forall fun _ => rfl)
  · rw [difference]
    exact isLeft.sub isRight

theorem Differentiates.mul
    (isFirst : Differentiates curves point first left)
    (isSecond : Differentiates curves point second right) :
    Differentiates curves point (.mul first second) (left.mul right) := by
  obtain ⟨f, denotesFirst, isLeft⟩ := isFirst
  obtain ⟨g, denotesSecond, isRight⟩ := isSecond
  refine ⟨fun y => f y * g y, ?_, ?_⟩
  · exact denotesFirst.combine denotesSecond (fun _ => rfl)
      (denotesFirst.analytic.fun_mul denotesSecond.analytic)
      (Filter.Eventually.of_forall fun _ => rfl)
  · rw [jet_mul denotesFirst.analytic denotesSecond.analytic]
    exact isLeft.mul isRight

/-- A quotient that is returned has a divisor without a zero near the point. -/
theorem Differentiates.div
    (isFirst : Differentiates curves point first left)
    (isSecond : Differentiates curves point second right)
    (returned : left.div right = .ok series) :
    Differentiates curves point (.div first second) series := by
  obtain ⟨f, denotesFirst, isLeft⟩ := isFirst
  obtain ⟨g, denotesSecond, isRight⟩ := isSecond
  obtain ⟨regular, isQuotient⟩ := isLeft.div isRight returned
  rw [constantCoeff_jet] at regular
  have analyticInverse := denotesSecond.analytic.fun_inv regular
  have quotient : jet (fun y => f y / g y) point = jet f point * (jet g point)⁻¹ := by
    simp only [div_eq_mul_inv]
    rw [jet_mul denotesFirst.analytic analyticInverse, jet_inv denotesSecond.analytic regular]
  refine ⟨fun y => f y / g y, ?_, ?_⟩
  · refine denotesFirst.combine denotesSecond (fun _ => rfl)
      (denotesFirst.analytic.fun_div denotesSecond.analytic regular) ?_
    filter_upwards [denotesSecond.analytic.continuousAt.eventually_ne regular] with y nonzero
    exact if_neg nonzero
  · rwa [quotient]

theorem Differentiates.exp
    (isInner : Differentiates curves point inner series) :
    Differentiates curves point (.exp inner) (series.exp realFunctions) := by
  obtain ⟨f, denotes, isSeries⟩ := isInner
  exact ⟨fun y => Real.exp (f y),
    denotes.apply (fun _ => rfl) denotes.analytic.rexp
      (Filter.Eventually.of_forall fun _ => rfl),
    represents_exp_jet denotes.analytic isSeries⟩

/-- A logarithm that is returned is that of positive values near the point. -/
theorem Differentiates.log
    (isInner : Differentiates curves point inner series)
    {logarithm : HyperDual ℝ order}
    (returned : series.log realFunctions = .ok logarithm) :
    Differentiates curves point (.log inner) logarithm := by
  obtain ⟨f, denotes, isSeries⟩ := isInner
  obtain ⟨positive, isLogarithm⟩ := represents_log_jet denotes.analytic isSeries returned
  refine ⟨fun y => Real.log (f y), ?_, isLogarithm⟩
  refine denotes.apply (fun _ => rfl) (denotes.analytic.log positive) ?_
  filter_upwards [denotes.analytic.continuousAt.eventually (eventually_gt_nhds positive)]
    with y positiveY
  exact if_pos positiveY

theorem Differentiates.sin
    (isInner : Differentiates curves point inner series) :
    Differentiates curves point (.sin inner) (series.sin realFunctions) := by
  obtain ⟨f, denotes, isSeries⟩ := isInner
  exact ⟨fun y => Real.sin (f y),
    denotes.apply (fun _ => rfl) (Real.analyticAt_sin.comp denotes.analytic)
      (Filter.Eventually.of_forall fun _ => rfl),
    (represents_sin_and_cos_jet denotes.analytic isSeries).1⟩

theorem Differentiates.cos
    (isInner : Differentiates curves point inner series) :
    Differentiates curves point (.cos inner) (series.cos realFunctions) := by
  obtain ⟨f, denotes, isSeries⟩ := isInner
  exact ⟨fun y => Real.cos (f y),
    denotes.apply (fun _ => rfl) (Real.analyticAt_cos.comp denotes.analytic)
      (Filter.Eventually.of_forall fun _ => rfl),
    (represents_sin_and_cos_jet denotes.analytic isSeries).2⟩

end Nodes

/-- Every run that returns differentiates the formula along the polynomials of its inputs. -/
theorem differentiates_of_evaluate
    {inputs : ι → HyperDual ℝ order}
    {series : HyperDual ℝ order}
    (returned : formula.evaluate realFunctions inputs = .ok series) :
    Differentiates (fun i => (inputs i).valueAround point) point formula series := by
  induction formula generalizing series with
  | input i =>
      cases returned
      obtain ⟨analytic, isSeries⟩ := @represents_valueAround order (inputs i) point
      exact ⟨_, ⟨analytic, Filter.Eventually.of_forall fun _ => rfl⟩, isSeries⟩
  | constant value =>
      cases returned
      refine ⟨fun _ => value, ⟨analyticAt_const, Filter.Eventually.of_forall fun _ => rfl⟩, ?_⟩
      rw [jet_const]
      exact represents_constant value
  | add first second firstHypothesis secondHypothesis =>
      obtain ⟨left, firstReturned, rest⟩ := bind_eq_ok.mp returned
      obtain ⟨right, secondReturned, ended⟩ := bind_eq_ok.mp rest
      cases ended
      exact (firstHypothesis firstReturned).add (secondHypothesis secondReturned)
  | sub first second firstHypothesis secondHypothesis =>
      obtain ⟨left, firstReturned, rest⟩ := bind_eq_ok.mp returned
      obtain ⟨right, secondReturned, ended⟩ := bind_eq_ok.mp rest
      cases ended
      exact (firstHypothesis firstReturned).sub (secondHypothesis secondReturned)
  | mul first second firstHypothesis secondHypothesis =>
      obtain ⟨left, firstReturned, rest⟩ := bind_eq_ok.mp returned
      obtain ⟨right, secondReturned, ended⟩ := bind_eq_ok.mp rest
      cases ended
      exact (firstHypothesis firstReturned).mul (secondHypothesis secondReturned)
  | div first second firstHypothesis secondHypothesis =>
      obtain ⟨left, firstReturned, rest⟩ := bind_eq_ok.mp returned
      obtain ⟨right, secondReturned, divided⟩ := bind_eq_ok.mp rest
      exact (firstHypothesis firstReturned).div (secondHypothesis secondReturned) divided
  | exp inner inductionHypothesis =>
      obtain ⟨series, innerReturned, ended⟩ := bind_eq_ok.mp returned
      cases ended
      exact (inductionHypothesis innerReturned).exp
  | log inner inductionHypothesis =>
      obtain ⟨series, innerReturned, logarithmReturned⟩ := bind_eq_ok.mp returned
      exact (inductionHypothesis innerReturned).log logarithmReturned
  | sin inner inductionHypothesis =>
      obtain ⟨series, innerReturned, ended⟩ := bind_eq_ok.mp returned
      cases ended
      exact (inductionHypothesis innerReturned).sin
  | cos inner inductionHypothesis =>
      obtain ⟨series, innerReturned, ended⟩ := bind_eq_ok.mp returned
      cases ended
      exact (inductionHypothesis innerReturned).cos

/-- A run that returns starts with the value of the formula. -/
theorem valueAt_of_evaluate
    {inputs : ι → HyperDual ℝ order}
    {series : HyperDual ℝ order}
    (returned : formula.evaluate realFunctions inputs = .ok series) :
    formula.valueAt (fun i => (inputs i).coefficient 0) = some (series.coefficient 0) := by
  obtain ⟨f, denotes, isSeries⟩ := @differentiates_of_evaluate ι order 0 _ _ _ returned
  have value := denotes.value_eq
  simp only [HyperDual.valueAround_self] at value
  rw [value, isSeries.coefficient_zero, constantCoeff_jet]

/-- The operands of a node with a value are run to their ends, and start with their values. -/
private theorem exists_operands
    {inputs : ι → HyperDual ℝ order}
    {operation : ℝ → ℝ → Option ℝ}
    {value : ℝ}
    (isValue :
      ((first.valueAt fun i => (inputs i).coefficient 0).bind fun u =>
        (second.valueAt fun i => (inputs i).coefficient 0).bind (operation u)) = some value)
    (firstRuns :
      ∀ {value},
        first.valueAt (fun i => (inputs i).coefficient 0) = some value →
        ∃ series, first.evaluate realFunctions inputs = .ok series)
    (secondRuns :
      ∀ {value},
        second.valueAt (fun i => (inputs i).coefficient 0) = some value →
        ∃ series, second.evaluate realFunctions inputs = .ok series) :
    ∃ left right,
      first.evaluate realFunctions inputs = .ok left ∧
        second.evaluate realFunctions inputs = .ok right ∧
        operation (left.coefficient 0) (right.coefficient 0) = some value := by
  obtain ⟨u, isFirst, rest⟩ := Option.bind_eq_some_iff.mp isValue
  obtain ⟨v, isSecond, computed⟩ := Option.bind_eq_some_iff.mp rest
  obtain ⟨left, firstReturned⟩ := firstRuns isFirst
  obtain ⟨right, secondReturned⟩ := secondRuns isSecond
  rw [valueAt_of_evaluate firstReturned, Option.some.injEq] at isFirst
  rw [valueAt_of_evaluate secondReturned, Option.some.injEq] at isSecond
  exact ⟨left, right, firstReturned, secondReturned, isFirst ▸ isSecond ▸ computed⟩

/-- A formula with a value is run to its end. -/
theorem evaluate_of_valueAt
    {inputs : ι → HyperDual ℝ order}
    {value : ℝ}
    (isValue : formula.valueAt (fun i => (inputs i).coefficient 0) = some value) :
    ∃ series, formula.evaluate realFunctions inputs = .ok series := by
  induction formula generalizing value with
  | input i =>
      exact ⟨_, rfl⟩
  | constant value =>
      exact ⟨_, rfl⟩
  | add first second firstHypothesis secondHypothesis =>
      obtain ⟨left, right, firstReturned, secondReturned, -⟩ :=
        exists_operands isValue firstHypothesis secondHypothesis
      rw [evaluate, firstReturned, secondReturned]
      exact ⟨_, rfl⟩
  | sub first second firstHypothesis secondHypothesis =>
      obtain ⟨left, right, firstReturned, secondReturned, -⟩ :=
        exists_operands isValue firstHypothesis secondHypothesis
      rw [evaluate, firstReturned, secondReturned]
      exact ⟨_, rfl⟩
  | mul first second firstHypothesis secondHypothesis =>
      obtain ⟨left, right, firstReturned, secondReturned, -⟩ :=
        exists_operands isValue firstHypothesis secondHypothesis
      rw [evaluate, firstReturned, secondReturned]
      exact ⟨_, rfl⟩
  | div first second firstHypothesis secondHypothesis =>
      obtain ⟨left, right, firstReturned, secondReturned, divided⟩ :=
        exists_operands isValue firstHypothesis secondHypothesis
      have regular : right.coefficient 0 ≠ 0 := by
        intro isZero
        rw [if_pos isZero] at divided
        cases divided
      have dividend : left.div right = .ok _ := if_neg regular
      rw [evaluate, firstReturned, secondReturned]
      exact ⟨_, dividend⟩
  | exp inner inductionHypothesis =>
      obtain ⟨u, isInner, -⟩ := Option.bind_eq_some_iff.mp isValue
      obtain ⟨series, innerReturned⟩ := inductionHypothesis isInner
      rw [evaluate, innerReturned]
      exact ⟨_, rfl⟩
  | log inner inductionHypothesis =>
      obtain ⟨u, isInner, logarithm⟩ := Option.bind_eq_some_iff.mp isValue
      obtain ⟨series, innerReturned⟩ := inductionHypothesis isInner
      have positive : 0 < series.coefficient 0 := by
        rw [valueAt_of_evaluate innerReturned, Option.some.injEq] at isInner
        by_contra notPositive
        rw [← isInner, if_neg notPositive] at logarithm
        cases logarithm
      have returned : series.log realFunctions = .ok _ := if_pos (decide_eq_true positive)
      rw [evaluate, innerReturned]
      exact ⟨_, returned⟩
  | sin inner inductionHypothesis =>
      obtain ⟨u, isInner, -⟩ := Option.bind_eq_some_iff.mp isValue
      obtain ⟨series, innerReturned⟩ := inductionHypothesis isInner
      rw [evaluate, innerReturned]
      exact ⟨_, rfl⟩
  | cos inner inductionHypothesis =>
      obtain ⟨u, isInner, -⟩ := Option.bind_eq_some_iff.mp isValue
      obtain ⟨series, innerReturned⟩ := inductionHypothesis isInner
      rw [evaluate, innerReturned]
      exact ⟨_, rfl⟩

end Meaning

/--
Over the real numbers a run returns exactly when the formula has a value, and then holds
the derivatives at any point of an analytic function whose values are those of the formula
on the polynomials of the inputs.
-/
theorem evaluate_differentiates
    (formula : Formula ι ℝ)
    (inputs : ι → HyperDual ℝ order)
    (point : ℝ) :
    ((∃ series, formula.evaluate realFunctions inputs = .ok series) ↔
        (formula.valueAt fun i => (inputs i).coefficient 0).isSome) ∧
      ∀ series,
        formula.evaluate realFunctions inputs = .ok series →
        ∃ f : ℝ → ℝ,
          AnalyticAt ℝ f point ∧
            (∀ᶠ y in 𝓝 point,
              formula.valueAt (fun i => (inputs i).valueAround point y) = some (f y)) ∧
            ∀ k ≤ order, series.derivative k = iteratedDeriv k f point := by
  refine ⟨⟨?_, ?_⟩, ?_⟩
  · rintro ⟨series, returned⟩
    rw [valueAt_of_evaluate returned]
    rfl
  · intro isSome
    obtain ⟨value, isValue⟩ := Option.isSome_iff_exists.mp isSome
    exact evaluate_of_valueAt isValue
  · intro series returned
    obtain ⟨f, denotes, isSeries⟩ := differentiates_of_evaluate returned
    exact ⟨f, denotes.analytic, denotes.defined, fun k => derivative_of_represents isSeries⟩

end Formula

end CalculusCore
