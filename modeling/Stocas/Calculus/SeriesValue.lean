import Mathlib.RingTheory.PowerSeries.Derivative
import Mathlib.Tactic.NormNum
import Mathlib.Tactic.Ring
import Stocas.Atom.PrintedValue
import Stocas.Calculus.Series
import Stocas.Numerica.HyperDualSeries

namespace CalculusCore

open AtomCore (AtomTree Interpretation integerPowers integerPowers_integerPowers)
open AtomCore.AtomTree
  (Everywhere eval eval_pow_iff evalAll evalAll_eq_some_iff everywhere_iff mkAdd mkMul)
open NumericaCore (HyperDual ScalarFunctions)
open NumericaCore.HyperDual (Represents represents_constant represents_independent)
open Outcome (bind_eq_ok map_eq_ok)
open PowerSeries (C X coeff constantCoeff)
open SymbolTable (Snapshot Symbol)

/-!
# The power series of an atom

An atom built from numbers, one variable, sums, products and integer powers has a
power series around each point where no base of a negative power vanishes.  The
series expansion computes its first coefficients.
-/

/-- Numbers, the variable, sums, products and integer powers. -/
def IntegerNode (variable_ : Symbol) : AtomTree → Prop
  | .num _ | .add _ | .mul _ => True
  | .var symbol => symbol = variable_
  | .pow _ exponent => ∃ n : ℤ, exponent = .num n
  | .func _ _ => False

/-- An atom built from such nodes. -/
abbrev IntegerPowered (variable_ : Symbol) (tree : AtomTree) : Prop :=
  tree.Everywhere (IntegerNode variable_)

variable {F : Type*} [Field F]

/-- An integer power; a negative one is that of the inverse. -/
noncomputable def seriesPower (φ : PowerSeries F) (n : ℤ) : PowerSeries F :=
  if n < 0 then φ⁻¹ ^ n.natAbs else φ ^ n.natAbs

section Value

variable (point : F)

mutual

/-- The power series of an atom around a point. -/
noncomputable def seriesValue : AtomTree → PowerSeries F
  | .num value => C (value : F)
  | .var _ => C point + X
  | .add terms => (seriesValues terms).sum
  | .mul factors => (seriesValues factors).prod
  | .pow base (.num exponent) => seriesPower (seriesValue base) exponent.num
  | .pow _ _ => 0
  | .func _ _ => 0

/-- The power series of some atoms. -/
noncomputable def seriesValues : List AtomTree → List (PowerSeries F)
  | [] => []
  | tree :: rest => seriesValue tree :: seriesValues rest

end

@[simp] theorem seriesValues_eq_map
    (trees : List AtomTree) :
    seriesValues point trees = trees.map (seriesValue point) := by
  induction trees with
  | nil =>
      rfl
  | cons tree rest inductionHypothesis =>
      simp only [seriesValues, inductionHypothesis, List.map_cons]

theorem seriesValue_mkAdd
    (terms : List AtomTree) :
    seriesValue point (mkAdd terms) = (terms.map (seriesValue point)).sum := by
  rw [mkAdd, seriesValue, seriesValues_eq_map]
  apply AtomCore.AtomTree.sum_variadicChildren
  intro term isAdd
  cases term <;> cases isAdd
  rw [seriesValue, seriesValues_eq_map, AtomTree.children]

theorem seriesValue_mkMul
    (factors : List AtomTree) :
    seriesValue point (mkMul factors) = (factors.map (seriesValue point)).prod := by
  rw [mkMul, seriesValue, seriesValues_eq_map]
  apply AtomCore.AtomTree.prod_variadicChildren
  intro factor isMul
  cases factor <;> cases isMul
  rw [seriesValue, seriesValues_eq_map, AtomTree.children]

end Value

/-- The inverse of a power is the power of the inverse. -/
theorem inverse_pow
    (φ : PowerSeries F)
    (n : Nat) :
    (φ ^ n)⁻¹ = φ⁻¹ ^ n := by
  induction n with
  | zero =>
      rw [pow_zero, pow_zero, ← map_one C, PowerSeries.C_inv, inv_one]
  | succ n inductionHypothesis =>
      rw [pow_succ, PowerSeries.mul_inv_rev, inductionHypothesis, pow_succ']

/-- The constant term of a power is the power of the constant term. -/
theorem constantCoeff_seriesPower
    (φ : PowerSeries F)
    (n : ℤ) :
    constantCoeff (seriesPower φ n) = constantCoeff φ ^ n := by
  rw [seriesPower]
  split_ifs with negative
  · rw [map_pow, PowerSeries.constantCoeff_inv, inv_pow, ← zpow_natCast,
      Int.ofNat_natAbs_of_nonpos negative.le, zpow_neg, inv_inv]
  · rw [map_pow, ← zpow_natCast, Int.natAbs_of_nonneg (not_lt.mp negative)]

/-- The derivative of an integer power. -/
theorem derivative_seriesPower
    (φ : PowerSeries F)
    (n : ℤ) :
    PowerSeries.derivative F (seriesPower φ n) =
      C (n : F) * (seriesPower φ (n - 1) * PowerSeries.derivative F φ) := by
  rcases n with m | m
  · cases m with
    | zero =>
        simp [seriesPower]
    | succ m =>
        have natural : seriesPower φ (Int.ofNat (m + 1)) = φ ^ (m + 1) :=
          if_neg (not_lt.mpr (Int.natCast_nonneg (m + 1)))
        have previous : seriesPower φ (Int.ofNat (m + 1) - 1) = φ ^ m := by
          rw [Int.ofNat_eq_natCast, Nat.cast_succ, add_sub_cancel_right]
          exact if_neg (not_lt.mpr (Int.natCast_nonneg m))
        rw [natural, previous, PowerSeries.derivative_pow, Nat.add_sub_cancel]
        simp
        ring
  · have negative : seriesPower φ (Int.negSucc m) = φ⁻¹ ^ (m + 1) :=
      if_pos (Int.negSucc_lt_zero m)
    have previous : seriesPower φ (Int.negSucc m - 1) = φ⁻¹ ^ (m + 2) :=
      if_pos (show Int.negSucc (m + 1) < 0 from Int.negSucc_lt_zero (m + 1))
    rw [negative, previous, PowerSeries.derivative_pow, PowerSeries.derivative_inv',
      Nat.add_sub_cancel]
    simp
    ring

section Expansion

variable [DecidableEq F] {order : Nat}

omit [DecidableEq F] in
/-- Repeated squaring computes the power. -/
theorem represents_powerLoop
    {result power : HyperDual F order}
    {ρ π : PowerSeries F}
    (isResult : result.Represents ρ)
    (isPower : power.Represents π)
    (magnitude : Nat) :
    (powerLoop result power magnitude).Represents (ρ * π ^ magnitude) := by
  induction magnitude using Nat.strong_induction_on generalizing result power ρ π with
  | _ magnitude inductionHypothesis =>
      rw [powerLoop]
      split_ifs with isZero isOdd
      · rw [isZero, pow_zero, mul_one]
        exact isResult
      · have smaller := Nat.div_lt_self (Nat.pos_of_ne_zero isZero) Nat.one_lt_two
        have later :=
          inductionHypothesis (magnitude / 2) smaller (isResult.mul isPower)
            (isPower.mul isPower)
        have halves : π ^ magnitude = π * (π * π) ^ (magnitude / 2) := by
          have parts : magnitude = 2 * (magnitude / 2) + 1 := by
            omega
          calc
            π ^ magnitude = π ^ (2 * (magnitude / 2) + 1) := congrArg (π ^ ·) parts
            _ = π * (π * π) ^ (magnitude / 2) := by rw [pow_succ', pow_mul, sq]
        rw [halves, ← mul_assoc]
        exact later
      · have smaller := Nat.div_lt_self (Nat.pos_of_ne_zero isZero) Nat.one_lt_two
        have later :=
          inductionHypothesis (magnitude / 2) smaller isResult (isPower.mul isPower)
        have halves : π ^ magnitude = (π * π) ^ (magnitude / 2) := by
          have parts : magnitude = 2 * (magnitude / 2) := by
            omega
          calc
            π ^ magnitude = π ^ (2 * (magnitude / 2)) := congrArg (π ^ ·) parts
            _ = (π * π) ^ (magnitude / 2) := by rw [pow_mul, sq]
        rw [halves]
        exact later

theorem liftDomain_eq_ok
    {α : Type*}
    {outcome : Except NumericaCore.DomainError α}
    {result : α}
    (succeeds : liftDomain outcome = .ok result) :
    outcome = .ok result := by
  cases outcome with
  | error error =>
      cases succeeds
  | ok found =>
      cases succeeds
      rfl

/-- An integer power that is returned is that of the series. -/
theorem represents_integerPower
    {base result : HyperDual F order}
    {φ : PowerSeries F}
    (isBase : base.Represents φ)
    {n : ℤ}
    (returned : integerPower base n = .ok result) :
    result.Represents (seriesPower φ n) := by
  have magnitude := represents_powerLoop (represents_constant 1) isBase n.natAbs
  rw [map_one, one_mul] at magnitude
  rw [integerPower] at returned
  rw [seriesPower]
  split_ifs at returned ⊢ with negative
  · have quotient :=
      (Represents.div (represents_constant 1) magnitude (liftDomain_eq_ok returned)).2
    rwa [map_one, one_mul, inverse_pow] at quotient
  · cases returned
    exact magnitude

variable {table : Snapshot} {symbols : CalculusSymbols} {functions : ScalarFunctions F}
  {variable_ : Symbol} {point : F}

/-- A sum of expansions represents the sum of the series. -/
private theorem represents_evaluateSum
    {terms : List AtomTree}
    (all :
      ∀ term ∈ terms, ∀ result : HyperDual F order,
        evaluateHyperDual table symbols functions variable_ (.independent point) term =
            .ok result →
          result.Represents (seriesValue point term))
    {sum result : HyperDual F order}
    {φ : PowerSeries F}
    (isSum : sum.Represents φ)
    (returned :
      evaluateSum table symbols functions variable_ (.independent point) terms sum =
        .ok result) :
    result.Represents (φ + (terms.map (seriesValue point)).sum) := by
  induction terms generalizing sum φ with
  | nil =>
      cases returned
      rw [List.map_nil, List.sum_nil, add_zero]
      exact isSum
  | cons term rest inductionHypothesis =>
      obtain ⟨next, nextReturned, later⟩ := bind_eq_ok.mp returned
      have isNext := all term List.mem_cons_self next nextReturned
      rw [List.map_cons, List.sum_cons, ← add_assoc]
      exact inductionHypothesis
        (fun other member => all other (List.mem_cons_of_mem _ member))
        (isSum.add isNext) later

/-- A product of expansions represents the product of the series. -/
private theorem represents_evaluateProduct
    {factors : List AtomTree}
    (all :
      ∀ factor ∈ factors, ∀ result : HyperDual F order,
        evaluateHyperDual table symbols functions variable_ (.independent point) factor =
            .ok result →
          result.Represents (seriesValue point factor))
    {product result : HyperDual F order}
    {φ : PowerSeries F}
    (isProduct : product.Represents φ)
    (returned :
      evaluateProduct table symbols functions variable_ (.independent point) factors
          product =
        .ok result) :
    result.Represents (φ * (factors.map (seriesValue point)).prod) := by
  induction factors generalizing product φ with
  | nil =>
      cases returned
      rw [List.map_nil, List.prod_nil, mul_one]
      exact isProduct
  | cons factor rest inductionHypothesis =>
      obtain ⟨next, nextReturned, later⟩ := bind_eq_ok.mp returned
      have isNext := all factor List.mem_cons_self next nextReturned
      rw [List.map_cons, List.prod_cons, ← mul_assoc]
      exact inductionHypothesis
        (fun other member => all other (List.mem_cons_of_mem _ member))
        (isProduct.mul isNext) later

/-- The expansion of an atom holds the first coefficients of its series. -/
theorem represents_evaluateHyperDual
    {tree : AtomTree}
    (integerPowered : IntegerPowered variable_ tree)
    {result : HyperDual F order}
    (returned :
      evaluateHyperDual table symbols functions variable_ (.independent point) tree =
        .ok result) :
    result.Represents (seriesValue point tree) := by
  induction tree generalizing result with
  | num value =>
      cases returned
      exact represents_constant (value : F)
  | var symbol =>
      rw [evaluateHyperDual] at returned
      split_ifs at returned
      cases returned
      exact represents_independent point
  | add terms inductionHypothesis =>
      have total :=
        represents_evaluateSum
          (fun term member _ => inductionHypothesis term member (integerPowered.child member))
          (represents_constant 0) returned
      rw [map_zero, zero_add] at total
      rwa [seriesValue, seriesValues_eq_map]
  | mul factors inductionHypothesis =>
      have total :=
        represents_evaluateProduct
          (fun factor member _ =>
            inductionHypothesis factor member (integerPowered.child member))
          (represents_constant 1) returned
      rw [map_one, one_mul] at total
      rwa [seriesValue, seriesValues_eq_map]
  | pow base exponent baseHypothesis _ =>
      obtain ⟨n, rfl⟩ := integerPowered.root
      obtain ⟨baseSeries, baseReturned, power⟩ := bind_eq_ok.mp returned
      have isBase := baseHypothesis (integerPowered.child (by simp [AtomTree.children]))
        baseReturned
      simp only [Rat.den_intCast, Rat.num_intCast, if_true] at power
      rw [seriesValue, Rat.num_intCast]
      exact represents_integerPower isBase power
  | func head arguments _ =>
      exact integerPowered.root.elim

end Expansion

section Constant

variable {meaning : Interpretation F} {variable_ : Symbol}

/-- A power with an integer exponent that has a value is that of the field. -/
theorem zpow_of_power
    (powers : meaning.IntegerPowers)
    {base value : F}
    {n : ℤ}
    (isPower : meaning.power base n = some value) :
    base ^ n = value := by
  by_cases isZero : base = 0
  · subst isZero
    rcases lt_or_ge n 0 with negative | natural
    · rw [powers.power_zero_negative n negative] at isPower
      cases isPower
    · obtain ⟨m, rfl⟩ := Int.eq_ofNat_of_zero_le natural
      rw [Int.cast_natCast, powers.power_zero_natural, Option.some.injEq] at isPower
      rw [zpow_natCast, isPower]
  · rw [powers.power_of_ne_zero n isZero, Option.some.injEq] at isPower
    exact isPower

/-- Values of atoms are the constant terms of their series, one by one. -/
private theorem map_constantCoeff_eq
    {trees : List AtomTree}
    {values : List F}
    (allValues :
      List.Forall₂ (fun tree value => eval meaning tree = some value) trees values)
    (all :
      ∀ tree ∈ trees, ∀ value : F,
        eval meaning tree = some value →
        constantCoeff (seriesValue (meaning.variableValue variable_) tree) = value) :
    (trees.map (seriesValue (meaning.variableValue variable_))).map constantCoeff =
      values := by
  induction allValues with
  | nil =>
      rfl
  | @cons tree value trees values first _ inductionHypothesis =>
      rw [List.map_cons, List.map_cons, all tree List.mem_cons_self value first,
        inductionHypothesis fun other member => all other (List.mem_cons_of_mem _ member)]

/-- An atom with a value has it as the constant term of its series. -/
theorem constantCoeff_seriesValue
    [CharZero F]
    (powers : meaning.IntegerPowers)
    {tree : AtomTree}
    (integerPowered : IntegerPowered variable_ tree)
    {value : F}
    (isValue : eval meaning tree = some value) :
    constantCoeff (seriesValue (meaning.variableValue variable_) tree) = value := by
  induction tree generalizing value with
  | num number =>
      cases isValue
      rw [seriesValue, PowerSeries.constantCoeff_C]
  | var symbol =>
      cases isValue
      have same : symbol = variable_ := integerPowered.root
      rw [seriesValue, map_add, PowerSeries.constantCoeff_C, PowerSeries.constantCoeff_X,
        add_zero, same]
  | add terms inductionHypothesis =>
      rw [eval, Option.map_eq_some_iff] at isValue
      obtain ⟨values, allValues, rfl⟩ := isValue
      have constants := map_constantCoeff_eq (evalAll_eq_some_iff.mp allValues)
        fun term member _ => inductionHypothesis term member (integerPowered.child member)
      rw [seriesValue, seriesValues_eq_map, map_list_sum, constants]
  | mul factors inductionHypothesis =>
      rw [eval, Option.map_eq_some_iff] at isValue
      obtain ⟨values, allValues, rfl⟩ := isValue
      have constants := map_constantCoeff_eq (evalAll_eq_some_iff.mp allValues)
        fun factor member _ => inductionHypothesis factor member (integerPowered.child member)
      rw [seriesValue, seriesValues_eq_map, map_list_prod, constants]
  | pow base exponent baseHypothesis _ =>
      obtain ⟨n, rfl⟩ := integerPowered.root
      obtain ⟨f, g, isBase, isExponent, isPower⟩ := eval_pow_iff.mp isValue
      have isConstant := baseHypothesis (integerPowered.child (by simp [AtomTree.children]))
        isBase
      have isInteger : g = ((n : ℤ) : F) := by
        rw [AtomCore.AtomTree.eval_integer, Option.some.injEq] at isExponent
        exact isExponent.symm
      rw [isInteger] at isPower
      rw [seriesValue, Rat.num_intCast, constantCoeff_seriesPower, isConstant]
      exact zpow_of_power powers isPower
  | func head arguments _ =>
      exact integerPowered.root.elim

end Constant

section Symbolic

variable {variable_ : Symbol}

theorem integerPowered_mkAdd
    {terms : List AtomTree}
    (all : ∀ term ∈ terms, IntegerPowered variable_ term) :
    IntegerPowered variable_ (mkAdd terms) :=
  .node trivial (AtomCore.AtomTree.everywhere_variadicChildren all)

theorem integerPowered_mkMul
    {factors : List AtomTree}
    (all : ∀ factor ∈ factors, IntegerPowered variable_ factor) :
    IntegerPowered variable_ (mkMul factors) :=
  .node trivial (AtomCore.AtomTree.everywhere_variadicChildren all)

theorem integerPowered_num
    (value : ℚ) :
    IntegerPowered variable_ (.num value) :=
  .node trivial fun _ member => (List.not_mem_nil member).elim

/-- The atom has such nodes only, and its series is the derivative of that one. -/
def HasDerivativeSeries
    (variable_ : Symbol)
    (point : F)
    (φ : PowerSeries F)
    (derived : AtomTree) : Prop :=
  IntegerPowered variable_ derived ∧
    seriesValue point derived = PowerSeries.derivative F φ

variable {point : F}

/-- The derivatives of terms add up to the derivative of the sum. -/
private theorem seriesValue_deriveds
    {terms deriveds : List AtomTree}
    (all :
      List.Forall₂
        (fun term => HasDerivativeSeries variable_ point (seriesValue point term))
        terms deriveds) :
    (∀ derived ∈ deriveds, IntegerPowered variable_ derived) ∧
      (deriveds.map (seriesValue point)).sum =
        PowerSeries.derivative F (terms.map (seriesValue point)).sum := by
  induction all with
  | nil =>
      simp
  | cons first _ inductionHypothesis =>
      obtain ⟨nodes, total⟩ := inductionHypothesis
      refine ⟨List.forall_mem_cons.mpr ⟨first.1, nodes⟩, ?_⟩
      rw [List.map_cons, List.sum_cons, List.map_cons, List.sum_cons, total, first.2,
        map_add]

/-- The terms of the product rule add up to the derivative of the product. -/
private theorem seriesValue_productTerms
    {before factors deriveds : List AtomTree}
    (beforeNodes : ∀ factor ∈ before, IntegerPowered variable_ factor)
    (factorNodes : ∀ factor ∈ factors, IntegerPowered variable_ factor)
    (all :
      List.Forall₂
        (fun factor => HasDerivativeSeries variable_ point (seriesValue point factor))
        factors deriveds) :
    (∀ term ∈ productTerms before factors deriveds, IntegerPowered variable_ term) ∧
      ((productTerms before factors deriveds).map (seriesValue point)).sum =
        (before.map (seriesValue point)).prod *
          PowerSeries.derivative F (factors.map (seriesValue point)).prod := by
  induction all generalizing before with
  | nil =>
      simp [productTerms]
  | @cons factor derived factors deriveds first _ inductionHypothesis =>
      obtain ⟨firstNodes, firstSeries⟩ := first
      rw [List.forall_mem_cons] at factorNodes
      have extended : ∀ other ∈ before ++ [factor], IntegerPowered variable_ other := by
        intro other member
        rcases List.mem_append.mp member with earlier | own
        · exact beforeNodes other earlier
        · rw [List.mem_singleton.mp own]
          exact factorNodes.1
      obtain ⟨laterNodes, total⟩ := inductionHypothesis extended factorNodes.2
      constructor
      · intro term member
        rcases List.mem_cons.mp member with rfl | later
        · apply integerPowered_mkMul
          rw [List.forall_mem_cons]
          refine ⟨firstNodes, fun other member => ?_⟩
          exact (List.mem_append.mp member).elim (beforeNodes other) (factorNodes.2 other)
        · exact laterNodes term later
      · rw [productTerms, List.map_cons, List.sum_cons, total, seriesValue_mkMul]
        simp only [List.map_cons, List.map_append, List.map_nil, List.prod_cons,
          List.prod_append, List.prod_nil, mul_one, firstSeries, Derivation.leibniz,
          smul_eq_mul]
        ring

/-- A derivative that is the number 0 itself has no series. -/
private theorem HasDerivativeSeries.eq_zero
    {φ : PowerSeries F}
    {derived : AtomTree}
    (isDerivative : HasDerivativeSeries variable_ point φ derived)
    (zero : isZero derived = true) :
    PowerSeries.derivative F φ = 0 := by
  cases derived with
  | num number =>
      rw [isZero, beq_iff_eq] at zero
      rw [← isDerivative.2, zero, seriesValue, Rat.cast_zero, map_zero]
  | var | add | mul | pow | func =>
      cases zero

/-- The rule for an integer exponent. -/
private theorem derivativePow_hasDerivativeSeries
    {symbols : CalculusSymbols}
    {base baseDerivative : AtomTree}
    (baseNodes : IntegerPowered variable_ base)
    (isDerivative :
      HasDerivativeSeries variable_ point (seriesValue point base) baseDerivative)
    (n : ℤ) :
    HasDerivativeSeries variable_ point (seriesValue point (.pow base (.num n)))
      (derivativePow symbols base (.num n) baseDerivative (.num 0)) := by
  have exponentZero : isZero (.num 0) = true := rfl
  have rule :=
    derivative_seriesPower (seriesValue point base) n
  rw [seriesValue, Rat.num_intCast, HasDerivativeSeries, rule]
  by_cases baseZero : isZero baseDerivative = true
  · rw [derivativePow, baseZero, exponentZero, isDerivative.eq_zero baseZero]
    exact ⟨integerPowered_num 0, by simp [seriesValue]⟩
  · have lowered : exponentMinusOne (.num n) = .num ((n - 1 : ℤ) : ℚ) := by
      rw [exponentMinusOne]
      push_cast
      rfl
    rw [derivativePow, if_neg (by simp [baseZero]), if_pos exponentZero, lowered]
    have powerNodes : IntegerPowered variable_ (.pow base (.num ((n - 1 : ℤ) : ℚ))) := by
      refine .node ⟨n - 1, rfl⟩ ?_
      simp [AtomTree.children, baseNodes, integerPowered_num]
    constructor
    · apply integerPowered_mkMul
      simp only [List.forall_mem_cons]
      exact ⟨integerPowered_num n, powerNodes, isDerivative.1, List.forall_mem_nil _⟩
    · rw [seriesValue_mkMul]
      simp only [List.map_cons, List.map_nil, List.prod_cons, List.prod_nil, mul_one,
        seriesValue, Rat.num_intCast, Rat.cast_intCast, isDerivative.2]

variable {table : Snapshot} {symbols : CalculusSymbols} {registry : HookRegistry}

/-- The derivatives of children, from those of each child. -/
private theorem derivativeAll_hasDerivativeSeries
    {children deriveds : List AtomTree}
    (all :
      ∀ child ∈ children, ∀ derived : AtomTree,
        derivativeImpl table symbols registry variable_ child = .ok derived →
          HasDerivativeSeries variable_ point (seriesValue point child) derived)
    (returned :
      derivativeAll table symbols registry variable_ children = .ok deriveds) :
    List.Forall₂
      (fun child => HasDerivativeSeries variable_ point (seriesValue point child))
      children deriveds := by
  have derivatives := forall₂_of_derivativeAll returned
  clear returned
  induction derivatives with
  | nil =>
      exact .nil
  | @cons child derived children deriveds first _ inductionHypothesis =>
      exact .cons (all child List.mem_cons_self derived first)
        (inductionHypothesis fun other member => all other (List.mem_cons_of_mem _ member))

/-- The symbolic derivative has the derivative of the series. -/
theorem derivativeImpl_hasDerivativeSeries
    {tree derived : AtomTree}
    (integerPowered : IntegerPowered variable_ tree)
    (returned : derivativeImpl table symbols registry variable_ tree = .ok derived) :
    HasDerivativeSeries variable_ point (seriesValue point tree) derived := by
  induction tree generalizing derived with
  | num number =>
      cases returned
      exact ⟨integerPowered_num 0, by simp [seriesValue]⟩
  | var symbol =>
      have same : symbol = variable_ := integerPowered.root
      rw [derivativeImpl, if_pos same] at returned
      cases returned
      exact ⟨integerPowered_num 1, by simp [seriesValue]⟩
  | add terms inductionHypothesis =>
      obtain ⟨deriveds, allReturned, rfl⟩ := map_eq_ok.mp returned
      have all := derivativeAll_hasDerivativeSeries
        (fun term member _ => inductionHypothesis term member (integerPowered.child member))
        allReturned
      obtain ⟨nodes, total⟩ := seriesValue_deriveds all
      refine ⟨integerPowered_mkAdd nodes, ?_⟩
      rw [seriesValue_mkAdd, total, seriesValue, seriesValues_eq_map]
  | mul factors inductionHypothesis =>
      obtain ⟨deriveds, allReturned, rfl⟩ := map_eq_ok.mp returned
      have all := derivativeAll_hasDerivativeSeries
        (fun factor member _ =>
          inductionHypothesis factor member (integerPowered.child member))
        allReturned
      have factorNodes : ∀ factor ∈ factors, IntegerPowered variable_ factor :=
        fun _ member => integerPowered.child member
      obtain ⟨nodes, total⟩ :=
        seriesValue_productTerms (List.forall_mem_nil _) factorNodes all
      refine ⟨integerPowered_mkAdd nodes, ?_⟩
      rw [seriesValue_mkAdd, total, seriesValue, seriesValues_eq_map, List.map_nil,
        List.prod_nil, one_mul]
  | pow base exponent baseHypothesis _ =>
      obtain ⟨n, rfl⟩ := integerPowered.root
      obtain ⟨baseDerivative, baseReturned, rest⟩ := bind_eq_ok.mp returned
      cases rest
      have baseNodes : IntegerPowered variable_ base :=
        integerPowered.child (by simp [AtomTree.children])
      exact derivativePow_hasDerivativeSeries baseNodes
        (baseHypothesis baseNodes baseReturned) n
  | func head arguments _ =>
      exact integerPowered.root.elim

/-- The iterated symbolic derivative has the iterated derivative of the series. -/
theorem iterateDerivative_hasSeries
    {count : Nat}
    {tree derived : AtomTree}
    (integerPowered : IntegerPowered variable_ tree)
    (returned :
      iterateDerivative table symbols registry variable_ count tree = .ok derived)
    (point : F) :
    IntegerPowered variable_ derived ∧
      seriesValue point derived =
        (PowerSeries.derivative F)^[count] (seriesValue point tree) := by
  induction count generalizing registry tree with
  | zero =>
      cases returned
      exact ⟨integerPowered, rfl⟩
  | succ count inductionHypothesis =>
      obtain ⟨first, firstReturned, rest⟩ := bind_eq_ok.mp returned
      have hasSeries :
          HasDerivativeSeries variable_ point (seriesValue point tree) first :=
        derivativeImpl_hasDerivativeSeries integerPowered firstReturned
      obtain ⟨firstNodes, firstSeries⟩ := hasSeries
      obtain ⟨nodes, iterated⟩ := inductionHypothesis firstNodes rest
      rw [firstSeries] at iterated
      exact ⟨nodes, iterated⟩

/-- Without a call every derivative is returned, whatever hooks there are. -/
theorem iterateDerivative_returns
    {tree : AtomTree}
    (integerPowered : IntegerPowered variable_ tree)
    (count : Nat) :
    ∃ derived, iterateDerivative table symbols registry variable_ count tree = .ok derived := by
  have answered
      {registry : HookRegistry}
      {node : AtomTree}
      (isNode : IntegerNode variable_ node) :
      Answered registry node := by
    cases node with
    | func =>
        exact isNode.elim
    | num | var | add | mul | pow =>
        trivial
  induction count generalizing registry tree with
  | zero =>
      exact ⟨tree, rfl⟩
  | succ count inductionHypothesis =>
      obtain ⟨first, firstReturned⟩ :=
        (derivativeImpl_returns_iff tree).mpr (integerPowered.imp fun _ => answered)
      have hasSeries :
          HasDerivativeSeries variable_ (0 : ℚ) (seriesValue 0 tree) first :=
        derivativeImpl_hasDerivativeSeries integerPowered firstReturned
      obtain ⟨derived, rest⟩ := inductionHypothesis hasSeries.1
      exact ⟨derived, bind_eq_ok.mpr ⟨first, firstReturned, rest⟩⟩

end Symbolic

/-- A series expansion returns the coefficients of the evaluated atom. -/
theorem coefficient_of_taylorSeries
    [DecidableEq F]
    {order : Nat}
    {table : Snapshot}
    {symbols : CalculusSymbols}
    {functions : ScalarFunctions F}
    {tree : AtomTree}
    {variable_ : Symbol}
    (integerPowered : IntegerPowered variable_ tree)
    {point : F}
    {series : Series F order}
    (expanded : taylorSeries order table symbols functions tree variable_ point = .ok series)
    {k : Nat}
    (within : k ≤ order) :
    series.coefficient k = .ok (coeff k (seriesValue point tree)) := by
  obtain ⟨result, returned, ended⟩ := bind_eq_ok.mp expanded
  cases ended
  have represents := represents_evaluateHyperDual integerPowered returned k within
  rw [← represents, Series.coefficient]
  have inside : k < order + 1 := Nat.lt_succ_of_le within
  simp [inside]

/--
The coefficients of a series expansion are the values of the iterated symbolic
derivatives, divided by factorials.
-/
theorem taylorSeries_iterateDerivative
    [CharZero F]
    [DecidableEq F]
    {order : Nat}
    {table : Snapshot}
    {symbols : CalculusSymbols}
    {functions : ScalarFunctions F}
    {registry : HookRegistry}
    {meaning : Interpretation F}
    (powers : meaning.IntegerPowers)
    {tree : AtomTree}
    {variable_ : Symbol}
    (integerPowered : IntegerPowered variable_ tree)
    {series : Series F order}
    (expanded :
      taylorSeries order table symbols functions tree variable_
        (meaning.variableValue variable_) = .ok series)
    {k : Nat}
    (within : k ≤ order)
    {derived : AtomTree}
    (derivedReturned :
      iterateDerivative table symbols registry variable_ k tree = .ok derived)
    {value : F}
    (isValue : eval meaning derived = some value) :
    ∃ coefficient,
      series.coefficient k = .ok coefficient ∧
        (k.factorial : F) * coefficient = value := by
  refine ⟨_, coefficient_of_taylorSeries integerPowered expanded within, ?_⟩
  obtain ⟨nodes, iterated⟩ :=
    iterateDerivative_hasSeries integerPowered derivedReturned
      (meaning.variableValue variable_)
  have isConstant := constantCoeff_seriesValue powers nodes isValue
  rw [iterated, PowerSeries.constantCoeff_iterate_derivative] at isConstant
  exact isConstant

/-- No function has a value. -/
def noFunctions : ScalarFunctions ℚ where
  exp := fun _ => 0
  log := fun _ => 0
  sin := fun _ => 0
  cos := fun _ => 0
  isPositive := fun _ => false

/-- Four symbols after the variable. -/
def functionSymbols : CalculusSymbols where
  sin := ⟨1⟩
  cos := ⟨2⟩
  exp := ⟨3⟩
  ln := ⟨4⟩

/-- `(1 + x)^(-1)`. -/
def reciprocal : AtomTree :=
  .pow (.add [.num 1, .var ⟨0⟩]) (.num (-1))

/-- The second derivative of `(1 + x)^(-1)`, as it is built. -/
def reciprocalDerivative : AtomTree :=
  .add
    [.mul
        [.num (-2), .num (-1), .add [.num 0, .num 1], .add [.num 0, .num 1],
          .pow (.add [.num 1, .var ⟨0⟩]) (.num (-3))],
      .mul
        [.num (-1), .add [.num 0, .num 0], .pow (.add [.num 1, .var ⟨0⟩]) (.num (-2))],
      .mul
        [.num 0, .add [.num 0, .num 1], .pow (.add [.num 1, .var ⟨0⟩]) (.num (-2))]]

private theorem integerPowered_reciprocal :
    IntegerPowered ⟨0⟩ reciprocal := by
  have sum : IntegerPowered ⟨0⟩ (.add [.num 1, .var ⟨0⟩]) := by
    refine .node trivial ?_
    simp only [AtomTree.children, List.forall_mem_cons]
    exact ⟨integerPowered_num 1, .node rfl (List.forall_mem_nil _), List.forall_mem_nil _⟩
  refine .node ⟨-1, by norm_num⟩ ?_
  simp only [reciprocal, AtomTree.children, List.forall_mem_cons]
  exact ⟨sum, integerPowered_num (-1), List.forall_mem_nil _⟩

/-- The second coefficient of `(1 + x)^(-1)` at 0 is half its second derivative. -/
theorem taylorSeries_iterateDerivative_reciprocal :
    ∃ series coefficient,
      taylorSeries 2 .empty functionSymbols noFunctions reciprocal ⟨0⟩ (0 : ℚ) =
          .ok series ∧
        series.coefficient 2 = .ok coefficient ∧
        2 * coefficient = 2 := by
  have built :
      iterateDerivative .empty functionSymbols ⟨[], false⟩ ⟨0⟩ 2 reciprocal =
        .ok reciprocalDerivative := by
    decide +kernel
  have isValue : eval integerPowers reciprocalDerivative = some 2 := by
    norm_num [reciprocalDerivative, eval, evalAll, integerPowers]
  have expands :
      (taylorSeries 2 .empty functionSymbols noFunctions reciprocal ⟨0⟩ (0 : ℚ)).isOk =
        true := by
    decide +kernel
  cases expanded :
      taylorSeries 2 .empty functionSymbols noFunctions reciprocal ⟨0⟩ (0 : ℚ) with
  | error error =>
      rw [expanded] at expands
      cases expands
  | ok series =>
      obtain ⟨coefficient, found, value⟩ :=
        taylorSeries_iterateDerivative integerPowers_integerPowers
          integerPowered_reciprocal expanded (Nat.le_refl 2) built isValue
      exact ⟨series, coefficient, rfl, found, value⟩

end CalculusCore
