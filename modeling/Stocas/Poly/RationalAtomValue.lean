import Stocas.Atom.PrintedValue
import Stocas.Poly.PolynomialAtomValue

namespace PolyCore

open AtomCore (AtomStore AtomTree Interpretation StringHash)
open AtomCore.AtomTree (eval eval_quotient quotient)
open SymbolTable (Symbol)

/-!
# The value of a written quotient

The denominator is dropped when the sum of its exponents is 0 in 32 bits.  A monomial
whose exponents add up to a multiple of 2^32 is dropped like the constant 1.
-/

variable {numVars : ℕ} {vars : Fin numVars → Symbol}

/-- Rational values for the variables, with integer powers. -/
def integerPoint (values : Symbol → ℚ) : Interpretation ℚ where
  variableValue := values
  function := AtomCore.integerPowers.function
  power := AtomCore.integerPowers.power

theorem integerPowers_integerPoint (values : Symbol → ℚ) :
    (integerPoint values).IntegerPowers where
  power_of_ne_zero := AtomCore.integerPowers_integerPowers.power_of_ne_zero
  power_zero_natural := AtomCore.integerPowers_integerPowers.power_zero_natural
  power_zero_negative := AtomCore.integerPowers_integerPowers.power_zero_negative

theorem naturalPowers_integerPoint (values : Symbol → ℚ) :
    NaturalPowers (integerPoint values) := by
  have powers := integerPowers_integerPoint values
  intro base exponent
  by_cases isZero : base = 0
  · rw [isZero]
    exact powers.power_zero_natural exponent
  · have power := powers.power_of_ne_zero exponent isZero
    rwa [Int.cast_natCast, zpow_natCast] at power

/-- The atom of a polynomial has the value of the polynomial. -/
theorem eval_polynomialTree_integerPoint
    (polynomial : MachinePolynomial vars ℚ)
    (values : Symbol → ℚ) :
    (polynomialTree polynomial).eval (integerPoint values) = some (polynomial.valueAt values) :=
  eval_polynomialTree (naturalPowers_integerPoint values) polynomial

/-- A denominator that is kept divides. -/
theorem eval_keptDenominator
    {polynomial : RationalPolynomial vars}
    (kept : ¬denominatorIsOne polynomial.denominator = true)
    {values : Symbol → ℚ}
    (nonzero : polynomial.denominator.valueAt values ≠ 0) :
    (rationalPolynomialTree polynomial).eval (integerPoint values) =
      some (polynomial.numerator.valueAt values / polynomial.denominator.valueAt values) := by
  rw [rationalPolynomialTree, if_neg kept]
  exact eval_quotient (integerPowers_integerPoint values)
    (eval_polynomialTree_integerPoint _ values) (eval_polynomialTree_integerPoint _ values)
    nonzero

/-- A denominator that is dropped leaves the value of the numerator. -/
theorem eval_droppedDenominator
    {polynomial : RationalPolynomial vars}
    (dropped : denominatorIsOne polynomial.denominator = true)
    (values : Symbol → ℚ) :
    (rationalPolynomialTree polynomial).eval (integerPoint values) =
      some (polynomial.numerator.valueAt values) := by
  rw [rationalPolynomialTree, if_pos dropped]
  exact eval_polynomialTree_integerPoint _ values

/-- A denominator that is a bare monomial does not have exponents that add up to 0. -/
def DegreeSurvives (denominator : MachinePolynomial vars ℚ) : Prop :=
  ∀ monomial : Monomial numVars,
    denominator.terms = [(monomial, 1)] →
      exponentModulus ∣ ∑ index, monomial.exponent index → monomial = 1

/-- The denominator is dropped for bare monomials of total degree 0. -/
theorem denominatorIsOne_iff
    {denominator : MachinePolynomial vars ℚ} :
    denominatorIsOne denominator = true ↔
      ∃ monomial : Monomial numVars,
        denominator.terms = [(monomial, 1)] ∧
          exponentModulus ∣ ∑ index, monomial.exponent index := by
  rw [denominatorIsOne]
  constructor
  · intro isOne
    split at isOne
    · rename_i leading isSingle
      obtain ⟨degree, coefficient⟩ := of_decide_eq_true isOne
      rw [Monomial.totalDegree_eq] at degree
      exact ⟨leading.1, coefficient ▸ isSingle, Nat.dvd_of_mod_eq_zero degree⟩
    · cases isOne
  · rintro ⟨monomial, isSingle, degree⟩
    rw [isSingle]
    refine decide_eq_true ⟨?_, rfl⟩
    rw [Monomial.totalDegree_eq]
    exact Nat.mod_eq_zero_of_dvd degree

/-- Under the condition only the constant 1 is dropped. -/
theorem dropped_only_one_iff
    {denominator : MachinePolynomial vars ℚ} :
    (denominatorIsOne denominator = true → denominator = .constant 1) ↔
      DegreeSurvives denominator := by
  rw [denominatorIsOne_iff, eq_constant_one_iff]
  constructor
  · intro onlyOne monomial isSingle degree
    have isOne := onlyOne ⟨monomial, isSingle, degree⟩
    rw [isSingle, List.cons.injEq, Prod.mk.injEq] at isOne
    exact isOne.1.1
  · rintro survives ⟨monomial, isSingle, degree⟩
    rw [isSingle, survives monomial isSingle degree]

/-- What is promised of the atom of a quotient at every rational point. -/
def EvaluatesToQuotient
    (polynomial : RationalPolynomial vars)
    (tree : AtomTree) :
    Prop :=
  ∀ values : Symbol → ℚ,
    polynomial.denominator.valueAt values ≠ 0 →
      tree.eval (integerPoint values) =
        some (polynomial.numerator.valueAt values / polynomial.denominator.valueAt values)

/-- Under the condition the atom has the value of the quotient. -/
theorem evaluatesToQuotient_of_survives
    {polynomial : RationalPolynomial vars}
    (survives : DegreeSurvives polynomial.denominator) :
    EvaluatesToQuotient polynomial (rationalPolynomialTree polynomial) := by
  intro values nonzero
  by_cases dropped : denominatorIsOne polynomial.denominator = true
  · have isOne := dropped_only_one_iff.mpr survives dropped
    have valueOne : polynomial.denominator.valueAt values = 1 := by
      rw [MachinePolynomial.valueAt, isOne, MachinePolynomial.toMvPolynomial_constant, map_one,
        map_one]
    rw [eval_droppedDenominator dropped, valueOne, div_one]
  · exact eval_keptDenominator dropped nonzero

/-- Over distinct variables a dropped denominator is 1 when the values agree. -/
theorem survives_of_evaluatesToQuotient
    (distinct : Function.Injective vars)
    {polynomial : RationalPolynomial vars}
    (agrees : EvaluatesToQuotient polynomial (rationalPolynomialTree polynomial)) :
    DegreeSurvives polynomial.denominator := by
  rw [← dropped_only_one_iff]
  intro dropped
  have denominatorNonzero := polynomial.denominator_ne_zero
  -- The product vanishes everywhere, and one of its factors is not zero.
  have vanishes :
      polynomial.denominator.toMvPolynomial *
        (polynomial.numerator.toMvPolynomial * (polynomial.denominator.toMvPolynomial - 1)) =
        0 := by
    refine MvPolynomial.funext fun point => ?_
    have restricted :
        (fun index => Function.extend vars point 0 (vars index)) = point :=
      funext fun index => distinct.extend_apply point 0 index
    have agree := agrees (Function.extend vars point 0)
    rw [eval_droppedDenominator dropped, MachinePolynomial.valueAt, MachinePolynomial.valueAt,
      restricted, Option.some.injEq] at agree
    rw [map_mul, map_mul, map_sub, map_one, map_zero, mul_eq_zero, mul_eq_zero]
    by_cases isZero : MvPolynomial.eval point polynomial.denominator.toMvPolynomial = 0
    · exact Or.inl isZero
    · have same := agree isZero
      rw [eq_div_iff isZero] at same
      refine Or.inr (mul_eq_zero.mp ?_)
      rw [mul_sub, same, mul_one, sub_self]
  have numeratorOrOne :=
    mul_eq_zero.mp ((mul_eq_zero.mp vanishes).resolve_left denominatorNonzero)
  refine denominator_eq_one ?_
  rcases numeratorOrOne with numeratorZero | isOne
  · rw [numeratorZero]
    exact dvd_zero _
  · rw [sub_eq_zero.mp isOne]
    exact one_dvd _

/--
In every reachable arena, the atom of a quotient has its value at every rational point
and no denominator but 1 is dropped, exactly when a bare monomial with exponents that add
up to a multiple of 2^32 is the constant 1.  Over distinct variables the values alone
need this.
-/
theorem rationalPolynomialToAtom_value_iff
    [StringHash]
    {store : AtomStore}
    (reachable : store.Reachable)
    (polynomial : RationalPolynomial vars) :
    let built := rationalPolynomialToAtom polynomial store
    let tree := built.2.tree built.1
    (EvaluatesToQuotient polynomial tree ∧
        (denominatorIsOne polynomial.denominator = true →
          polynomial.denominator = .constant 1) ↔
      DegreeSurvives polynomial.denominator) ∧
    (Function.Injective vars →
      (EvaluatesToQuotient polynomial tree ↔ DegreeSurvives polynomial.denominator)) := by
  intro built tree
  have tree_eq : tree = rationalPolynomialTree polynomial :=
    (rationalPolynomialToAtom_built reachable.invariant polynomial).tree_eq
  rw [tree_eq, dropped_only_one_iff]
  refine ⟨and_iff_right_of_imp evaluatesToQuotient_of_survives, ?_⟩
  intro distinct
  exact ⟨survives_of_evaluatesToQuotient distinct, evaluatesToQuotient_of_survives⟩

/-- The variables `x` and `y`. -/
def variablesXY : Fin 2 → Symbol :=
  fun index => ⟨index⟩

/-- `1/(x*y)` has its value everywhere. -/
theorem rationalPolynomialToAtom_value_product :
    let constant : StringHash := ⟨fun _ => 0⟩
    let polynomial : RationalPolynomial variablesXY :=
      .overMonomial _ 1 one_ne_zero ⟨fun _ => 1⟩ (by decide +kernel)
    let built := @rationalPolynomialToAtom _ constant _ polynomial .empty
    EvaluatesToQuotient polynomial (built.2.tree built.1) := by
  intro constant polynomial built
  have terms : polynomial.denominator.terms = [(⟨fun _ => 1⟩, 1)] :=
    MultivariatePolynomial.terms_fromTerm one_ne_zero
  refine ((@rationalPolynomialToAtom_value_iff _ _ constant .empty
    ⟨[], Transition.everyStep_nil, rfl⟩ polynomial).1.mpr ?_).1
  intro monomial isSingle degree
  rw [terms, List.cons.injEq, Prod.mk.injEq] at isSingle
  rw [← isSingle.1.1] at degree
  exact absurd degree (by decide +kernel)

/-- `1/(x^4294967295*y)` is written as `1`, also where `x` is 1 and `y` is 2. -/
theorem rationalPolynomialToAtom_value_dropped :
    let constant : StringHash := ⟨fun _ => 0⟩
    let polynomial : RationalPolynomial variablesXY :=
      .overMonomial _ 1 one_ne_zero ⟨![4294967295, 1]⟩ (by decide +kernel)
    let built := @rationalPolynomialToAtom _ constant _ polynomial .empty
    let values : Symbol → ℚ := fun symbol => symbol.id + 1
    (built.2.tree built.1).eval (integerPoint values) = some 1 ∧
      polynomial.numerator.valueAt values = 1 ∧
      polynomial.denominator.valueAt values = 2 ∧
      ¬EvaluatesToQuotient polynomial (built.2.tree built.1) := by
  intro constant polynomial built values
  have start : @AtomStore.Reachable constant .empty := ⟨[], Transition.everyStep_nil, rfl⟩
  have tree_eq : built.2.tree built.1 = rationalPolynomialTree polynomial :=
    (@rationalPolynomialToAtom_built _ constant _ _ start.invariant polynomial).tree_eq
  have dropped : denominatorIsOne polynomial.denominator = true := by
    rw [denominatorIsOne_overMonomial_iff]
    decide +kernel
  have numeratorValue : polynomial.numerator.valueAt values = 1 := by
    have isOne : polynomial.numerator.toMvPolynomial = MvPolynomial.C 1 :=
      MachinePolynomial.toMvPolynomial_constant 1
    rw [MachinePolynomial.valueAt, isOne, map_one, map_one]
  have denominatorValue : polynomial.denominator.valueAt values = 2 := by
    have isMonomial :
        polynomial.denominator.toMvPolynomial =
          MvPolynomial.monomial (⟨![4294967295, 1]⟩ : Monomial 2).toFinsupp 1 :=
      MultivariatePolynomial.toMvPolynomial_fromTerm _ _
    have xValue : values (variablesXY 0) = 1 := by norm_num [values, variablesXY]
    have yValue : values (variablesXY 1) = 2 := by norm_num [values, variablesXY]
    rw [MachinePolynomial.valueAt, isMonomial, eval_monomial_toFinsupp, prod_occurring,
      Fin.prod_univ_two, xValue, yValue, one_pow, one_mul, one_mul]
    exact pow_one 2
  have treeValue := eval_droppedDenominator dropped values
  rw [tree_eq]
  refine ⟨?_, numeratorValue, denominatorValue, ?_⟩
  · rw [treeValue, numeratorValue]
  · intro agrees
    have agree := agrees values (denominatorValue ▸ two_ne_zero)
    rw [treeValue, numeratorValue, denominatorValue, Option.some.injEq] at agree
    norm_num at agree

end PolyCore
