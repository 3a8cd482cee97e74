import Mathlib
import Stocas.Atom.Evaluation
import Stocas.Calculus.Derivative

namespace CalculusCore

open AtomCore (AtomTree Interpretation)
open AtomCore.AtomTree
  (children eval evalAll eval_mkAdd_eq eval_mkMul_eq evalAll_eq_some_iff everywhere_iff mkAdd
    mkMul)
open Outcome (bind_eq_ok map_eq_ok)
open SymbolTable (Snapshot Symbol Text)

/-!
# The derivative in a differential field

Atoms are interpreted in a field with a derivation.  Functions and powers may be
partial, as logarithms are; the laws below are those of the elementary functions
wherever they are defined.  Under them the derivative of an atom has the derivative
of its value.
-/

variable {K : Type*} [Field K]

/-- The laws of the interpretation under the derivation. -/
structure DifferentialLaws
    (D : Derivation ℤ K K)
    (meaning : Interpretation K)
    (symbols : CalculusSymbols)
    (variable_ : Symbol) : Prop where
  variable_derivative : D (meaning.variableValue variable_) = 1
  other_derivative :
    ∀ symbol, symbol ≠ variable_ → D (meaning.variableValue symbol) = 0
  sin_derivative :
    ∀ {u sine cosine : K},
      meaning.function symbols.sin [u] = some sine →
      meaning.function symbols.cos [u] = some cosine →
      D sine = cosine * D u
  cos_derivative :
    ∀ {u sine cosine : K},
      meaning.function symbols.sin [u] = some sine →
      meaning.function symbols.cos [u] = some cosine →
      D cosine = -sine * D u
  exp_derivative :
    ∀ {u exponential : K},
      meaning.function symbols.exp [u] = some exponential →
      D exponential = exponential * D u
  ln_derivative :
    ∀ {u logarithm : K},
      meaning.function symbols.ln [u] = some logarithm →
      u ≠ 0 ∧ D logarithm = D u / u
  integer_power :
    ∀ {f : K} (n : ℤ), f ≠ 0 → meaning.power f n = some (f ^ n)
  /-- The logarithm does not matter for a constant exponent. -/
  power_derivative :
    ∀ {f g power logarithm : K},
      f ≠ 0 →
      (∀ n : ℤ, g ≠ n) →
      meaning.power f g = some power →
      meaning.function symbols.ln [f] = some logarithm ∨ D g = 0 →
      D power = power * (D g * logarithm + g * D f / f)
  power_predecessor :
    ∀ {f g power previous : K},
      f ≠ 0 →
      (∀ n : ℤ, g ≠ n) →
      meaning.power f g = some power →
      meaning.power f (g - 1) = some previous →
      previous = power / f
  /-- The elementary functions take one argument. -/
  unary :
    ∀ {head : Symbol} {values : List K} {value : K},
      head ∈ [symbols.sin, symbols.cos, symbols.exp, symbols.ln] →
      meaning.function head values = some value →
      values.length = 1

/-- A hook returns the true partial derivatives of its head's function. -/
def TruePartials
    (D : Derivation ℤ K K)
    (meaning : Interpretation K)
    (head : Symbol)
    (hook : DerivativeHook) : Prop :=
  ∀ {arguments : List AtomTree} {values : List K} {value : K},
    evalAll meaning arguments = some values →
    meaning.function head values = some value →
    ∃ partials,
      hook arguments = .ok partials ∧ partials.length = arguments.length ∧
        ∀ slopes,
          evalAll meaning partials = some slopes →
          D value = (List.zipWith (fun slope u => slope * D u) slopes values).sum

/-- The hook of a built-in function. -/
inductive IsBuiltin (symbols : CalculusSymbols) : Symbol → DerivativeHook → Prop where
  | sin : IsBuiltin symbols symbols.sin (sinHook symbols)
  | cos : IsBuiltin symbols symbols.cos (cosHook symbols)
  | exp : IsBuiltin symbols symbols.exp (expHook symbols)
  | ln : IsBuiltin symbols symbols.ln lnHook

/-- No base of a power has the value 0. -/
inductive NonzeroBases (meaning : Interpretation K) : AtomTree → Prop where
  | num (value : ℚ) :
      NonzeroBases meaning (.num value)
  | var (symbol : Symbol) :
      NonzeroBases meaning (.var symbol)
  | add
      {terms : List AtomTree} :
      (∀ term ∈ terms, NonzeroBases meaning term) →
      NonzeroBases meaning (.add terms)
  | mul
      {factors : List AtomTree} :
      (∀ factor ∈ factors, NonzeroBases meaning factor) →
      NonzeroBases meaning (.mul factors)
  | pow
      {base exponent : AtomTree} :
      NonzeroBases meaning base →
      NonzeroBases meaning exponent →
      eval meaning base ≠ some 0 →
      NonzeroBases meaning (.pow base exponent)
  | func
      (head : Symbol)
      {arguments : List AtomTree} :
      (∀ argument ∈ arguments, NonzeroBases meaning argument) →
      NonzeroBases meaning (.func head arguments)

/-- A hook is registered for the head of a call. -/
def HasHook (registry : HookRegistry) : AtomTree → Prop
  | .func head _ => (registry.get head).isSome
  | _ => True

/-- A number, or a variable other than that of the derivative. -/
def Constant (variable_ : Symbol) : AtomTree → Prop
  | .num _ => True
  | .var symbol => symbol ≠ variable_
  | _ => False

/-- What the rules use at a node has a value: the lowered power, the logarithm of a base
whose exponent varies, and the partial derivatives of a call. -/
def SlopeDefined
    (meaning : Interpretation K)
    (symbols : CalculusSymbols)
    (registry : HookRegistry)
    (variable_ : Symbol) : AtomTree → Prop
  | .pow base exponent =>
      ∀ f g,
        eval meaning base = some f →
        eval meaning exponent = some g →
        (meaning.power f (g - 1)).isSome ∧
          (Constant variable_ exponent ∨ (meaning.function symbols.ln [f]).isSome)
  | .func head arguments =>
      ∀ hook partials,
        registry.get head = some hook →
        hook arguments = .ok partials →
        (evalAll meaning partials).isSome
  | _ => True

variable {D : Derivation ℤ K K} {meaning : Interpretation K}
  {symbols : CalculusSymbols} {variable_ : Symbol}

/-- The atom has no other value, and has this one when enough is defined. -/
def HasOnly
    (meaning : Interpretation K)
    (enough : Prop)
    (tree : AtomTree)
    (value : K) : Prop :=
  (∀ other, eval meaning tree = some other → other = value) ∧
    (enough → eval meaning tree = some value)

variable {enough : Prop}

theorem HasOnly.of_eval
    {tree : AtomTree}
    {value : K}
    (defined : eval meaning tree = some value) :
    HasOnly meaning enough tree value := by
  refine ⟨?_, fun _ => defined⟩
  intro other isOther
  rw [defined] at isOther
  exact (Option.some.inj isOther).symm

/-- Less may be enough. -/
theorem HasOnly.mono
    {stronger : Prop}
    {tree : AtomTree}
    {value : K}
    (only : HasOnly meaning enough tree value)
    (implies : stronger → enough) :
    HasOnly meaning stronger tree value :=
  ⟨only.1, fun holds => only.2 (implies holds)⟩

/-- Atoms have the values of a list one by one, or with enough defined all of them. -/
theorem evalAll_of_hasOnly
    {trees : List AtomTree}
    {values : List K}
    (all : List.Forall₂ (HasOnly meaning enough) trees values) :
    (∀ others, evalAll meaning trees = some others → others = values) ∧
      (enough → evalAll meaning trees = some values) := by
  constructor
  · intro others defined
    rw [evalAll_eq_some_iff] at defined
    induction all generalizing others with
    | nil =>
        cases defined
        rfl
    | cons first _ inductionHypothesis =>
        cases defined with
        | cons head later =>
            rw [first.1 _ head, inductionHypothesis _ later]
  · intro isEnough
    rw [evalAll_eq_some_iff]
    exact all.imp fun _ _ only => only.2 isEnough

/-- A built sum has the sum of the values. -/
theorem HasOnly.mkAdd
    {trees : List AtomTree}
    {values : List K}
    (all : List.Forall₂ (HasOnly meaning enough) trees values) :
    HasOnly meaning enough (mkAdd trees) values.sum := by
  obtain ⟨only, defined⟩ := evalAll_of_hasOnly all
  refine ⟨?_, fun isEnough => ?_⟩
  · intro other isOther
    rw [eval_mkAdd_eq, Option.map_eq_some_iff] at isOther
    obtain ⟨others, others_eq, rfl⟩ := isOther
    rw [only others others_eq]
  · rw [eval_mkAdd_eq, defined isEnough, Option.map_some]

/-- A built product has the product of the values. -/
theorem HasOnly.mkMul
    {trees : List AtomTree}
    {values : List K}
    (all : List.Forall₂ (HasOnly meaning enough) trees values) :
    HasOnly meaning enough (mkMul trees) values.prod := by
  obtain ⟨only, defined⟩ := evalAll_of_hasOnly all
  refine ⟨?_, fun isEnough => ?_⟩
  · intro other isOther
    rw [eval_mkMul_eq, Option.map_eq_some_iff] at isOther
    obtain ⟨others, others_eq, rfl⟩ := isOther
    rw [only others others_eq]
  · rw [eval_mkMul_eq, defined isEnough, Option.map_some]

/-- An atom without a value, when not enough is defined. -/
theorem HasOnly.of_eval_none
    {tree : AtomTree}
    {value : K}
    (undefined : eval meaning tree = none)
    (notEnough : ¬enough) :
    HasOnly meaning enough tree value := by
  refine ⟨?_, fun isEnough => (notEnough isEnough).elim⟩
  intro other isOther
  rw [undefined] at isOther
  cases isOther

/-- Several trees have no values when one of them has none. -/
theorem evalAll_eq_none
    {trees : List AtomTree}
    {tree : AtomTree}
    (member : tree ∈ trees)
    (undefined : eval meaning tree = none) :
    evalAll meaning trees = none := by
  by_contra defined
  have all := AtomCore.AtomTree.isSome_evalAll_iff.mp (Option.isSome_iff_ne_none.mpr defined)
  have impossible := all tree member
  rw [undefined] at impossible
  cases impossible

theorem eval_mkMul_eq_none
    {trees : List AtomTree}
    {tree : AtomTree}
    (member : tree ∈ trees)
    (undefined : eval meaning tree = none) :
    eval meaning (AtomCore.AtomTree.mkMul trees) = none := by
  rw [eval_mkMul_eq, evalAll_eq_none member undefined, Option.map_none]

theorem eval_mkAdd_eq_none
    {trees : List AtomTree}
    {tree : AtomTree}
    (member : tree ∈ trees)
    (undefined : eval meaning tree = none) :
    eval meaning (AtomCore.AtomTree.mkAdd trees) = none := by
  rw [eval_mkAdd_eq, evalAll_eq_none member undefined, Option.map_none]

/-- Rational numbers are constants. -/
theorem derivation_ratCast
    [CharZero K]
    (value : ℚ) :
    D (value : K) = 0 := by
  rw [Rat.cast_def, D.leibniz_div, D.map_natCast, D.map_intCast]
  simp

section Powers

variable {f g power : K}

/-- The rule of powers holds for integer exponents too. -/
theorem DifferentialLaws.power_rule
    (laws : DifferentialLaws D meaning symbols variable_)
    (nonzero : f ≠ 0)
    (isPower : meaning.power f g = some power)
    {logarithm : K}
    (isLogarithm : meaning.function symbols.ln [f] = some logarithm ∨ D g = 0) :
    D power = power * (D g * logarithm + g * D f / f) := by
  by_cases isInteger : ∃ n : ℤ, g = n
  · obtain ⟨n, rfl⟩ := isInteger
    rw [laws.integer_power n nonzero, Option.some.injEq] at isPower
    rw [← isPower, D.leibniz_zpow, D.map_intCast, zpow_sub_one₀ nonzero]
    simp only [zsmul_eq_mul, smul_eq_mul]
    ring
  · exact laws.power_derivative nonzero (not_exists.mp isInteger) isPower isLogarithm

/-- The rule for a constant exponent needs no logarithm. -/
theorem DifferentialLaws.power_rule_constant
    (laws : DifferentialLaws D meaning symbols variable_)
    (nonzero : f ≠ 0)
    (isPower : meaning.power f g = some power)
    (constant : D g = 0) :
    D power = power * (g * D f / f) := by
  have rule : D power = power * (D g * 0 + g * D f / f) :=
    laws.power_rule nonzero isPower (Or.inr constant)
  rw [rule, mul_zero, zero_add]

/-- Lowering an exponent by 1 divides, for integer exponents too. -/
theorem DifferentialLaws.power_sub_one
    (laws : DifferentialLaws D meaning symbols variable_)
    (nonzero : f ≠ 0)
    (isPower : meaning.power f g = some power)
    {previous : K}
    (isPrevious : meaning.power f (g - 1) = some previous) :
    previous = power / f := by
  by_cases isInteger : ∃ n : ℤ, g = n
  · obtain ⟨n, rfl⟩ := isInteger
    have shifted : ((n : K) - 1) = ((n - 1 : ℤ) : K) := by
      push_cast
      rfl
    rw [laws.integer_power n nonzero, Option.some.injEq] at isPower
    rw [shifted, laws.integer_power _ nonzero, Option.some.injEq] at isPrevious
    rw [← isPower, ← isPrevious, zpow_sub_one₀ nonzero, div_eq_mul_inv]
  · exact laws.power_predecessor nonzero (not_exists.mp isInteger) isPower isPrevious

/-- A power of a nonzero base, with its value known where it has one. -/
theorem HasOnly.pow
    (defined : enough → (meaning.power f g).isSome)
    {base exponent : AtomTree}
    (isBase : eval meaning base = some f)
    (isExponent : eval meaning exponent = some g)
    {value : K}
    (only : ∀ other, meaning.power f g = some other → other = value) :
    HasOnly meaning enough (.pow base exponent) value := by
  have evaluates : eval meaning (.pow base exponent) = meaning.power f g := by
    rw [eval, isBase, isExponent, Option.bind_some, Option.bind_some]
  refine ⟨?_, fun isEnough => ?_⟩
  · intro other isOther
    rw [evaluates] at isOther
    exact only other isOther
  · obtain ⟨other, isOther⟩ := Option.isSome_iff_exists.mp (defined isEnough)
    rw [evaluates, isOther, only other isOther]

/-- The power -1 of a nonzero base is its inverse. -/
theorem DifferentialLaws.eval_inverse
    (laws : DifferentialLaws D meaning symbols variable_)
    {base : AtomTree}
    (isBase : eval meaning base = some f)
    (nonzero : f ≠ 0) :
    eval meaning (.pow base (.num (-1))) = some f⁻¹ := by
  have minusOne : ((-1 : ℚ) : K) = ((-1 : ℤ) : K) := by
    push_cast
    rfl
  rw [eval, isBase, eval, Option.bind_some, Option.bind_some, minusOne,
    laws.integer_power (-1) nonzero, zpow_neg_one]

/-- `exponent - 1` has the value of the exponent less 1. -/
theorem eval_exponentMinusOne
    [CharZero K]
    {exponent : AtomTree}
    (isExponent : eval meaning exponent = some g) :
    eval meaning (exponentMinusOne exponent) = some (g - 1) := by
  have built :
      eval meaning (AtomCore.AtomTree.mkAdd [exponent, .num (-1)]) = some (g - 1) := by
    rw [eval_mkAdd_eq]
    simp [evalAll, eval, isExponent, sub_eq_add_neg]
  cases exponent with
  | num value =>
      rw [eval, Option.some.injEq] at isExponent
      rw [exponentMinusOne, eval, ← isExponent]
      push_cast
      rfl
  | var | add | mul | pow | func =>
      exact built

/-- A derivative that is the number 0 itself is a derivative of a constant. -/
theorem HasOnly.eq_zero
    {tree : AtomTree}
    {value : K}
    (only : HasOnly meaning enough tree value)
    (zero : isZero tree = true) :
    value = 0 := by
  cases tree with
  | num number =>
      rw [isZero, beq_iff_eq] at zero
      subst zero
      have isZero := only.1 ((0 : ℚ) : K) rfl
      rw [← isZero, Rat.cast_zero]
  | var | add | mul | pow | func =>
      cases zero

/-- The power rule, in the case that its two tests choose. -/
theorem derivativePow_hasOnly
    [CharZero K]
    (laws : DifferentialLaws D meaning symbols variable_)
    {base exponent baseDerivative exponentDerivative : AtomTree}
    (previousDefined : enough → (meaning.power f (g - 1)).isSome)
    (logarithmDefined :
      enough → isZero exponentDerivative = false →
        (meaning.function symbols.ln [f]).isSome)
    (isBase : eval meaning base = some f)
    (isExponent : eval meaning exponent = some g)
    (nonzero : f ≠ 0)
    (isPower : meaning.power f g = some power)
    (baseOnly : HasOnly meaning enough baseDerivative (D f))
    (exponentOnly : HasOnly meaning enough exponentDerivative (D g)) :
    HasOnly meaning enough
      (derivativePow symbols base exponent baseDerivative exponentDerivative)
      (D power) := by
  have powerOnly : HasOnly meaning enough (.pow base exponent) power :=
    .of_eval (by rw [eval, isBase, isExponent]; exact isPower)
  have evalLogarithm :
      eval meaning (.func symbols.ln [base]) = meaning.function symbols.ln [f] := by
    simp [eval, evalAll, isBase]
  have noLogarithm :
      ¬isZero exponentDerivative = true →
      meaning.function symbols.ln [f] = none →
      eval meaning (.func symbols.ln [base]) = none ∧ ¬enough := by
    intro varies undefined
    refine ⟨evalLogarithm.trans undefined, fun isEnough => ?_⟩
    have isDefined := logarithmDefined isEnough (Bool.eq_false_iff.mpr varies)
    rw [undefined] at isDefined
    cases isDefined
  rw [derivativePow]
  split_ifs with bothConstant exponentConstant baseConstant
  · -- both parts are constant
    rw [Bool.and_eq_true] at bothConstant
    have baseZero := baseOnly.eq_zero bothConstant.1
    have exponentZero := exponentOnly.eq_zero bothConstant.2
    have rule := laws.power_rule_constant nonzero isPower exponentZero
    apply HasOnly.of_eval
    rw [rule, baseZero, eval]
    simp
  · -- the ordinary power rule
    have exponentZero := exponentOnly.eq_zero exponentConstant
    have rule := laws.power_rule_constant nonzero isPower exponentZero
    have previousOnly :
        HasOnly meaning enough (.pow base (exponentMinusOne exponent)) (power / f) :=
      .pow previousDefined isBase (eval_exponentMinusOne isExponent)
        (fun _ isPrevious => laws.power_sub_one nonzero isPower isPrevious)
    have product :=
      HasOnly.mkMul (.cons (.of_eval isExponent) (.cons previousOnly (.cons baseOnly .nil)))
    have same : [g, power / f, D f].prod = D power := by
      rw [rule]
      simp only [List.prod_cons, List.prod_nil]
      ring
    rw [← same]
    exact product
  · -- only the exponent varies
    have baseZero := baseOnly.eq_zero baseConstant
    cases isLogarithm : meaning.function symbols.ln [f] with
    | none =>
        obtain ⟨undefined, notEnough⟩ := noLogarithm exponentConstant isLogarithm
        exact .of_eval_none (eval_mkMul_eq_none (by simp) undefined) notEnough
    | some logarithm =>
        have rule := laws.power_rule nonzero isPower (Or.inl isLogarithm)
        have product :=
          HasOnly.mkMul
            (.cons powerOnly
              (.cons (.of_eval (evalLogarithm.trans isLogarithm))
                (.cons exponentOnly .nil)))
        have same : [power, logarithm, D g].prod = D power := by
          rw [rule, baseZero]
          simp only [List.prod_cons, List.prod_nil]
          ring
        rw [← same]
        exact product
  · -- both parts vary
    cases isLogarithm : meaning.function symbols.ln [f] with
    | none =>
        obtain ⟨undefined, notEnough⟩ := noLogarithm exponentConstant isLogarithm
        have firstTerm :
            eval meaning (mkMul [exponentDerivative, .func symbols.ln [base]]) = none :=
          eval_mkMul_eq_none (by simp) undefined
        have inner :
            eval meaning
                (mkAdd
                  [mkMul [exponentDerivative, .func symbols.ln [base]],
                    mkMul [exponent, baseDerivative, .pow base (.num (-1))]]) =
              none :=
          eval_mkAdd_eq_none (by simp) firstTerm
        exact .of_eval_none (eval_mkMul_eq_none (by simp) inner) notEnough
    | some logarithm =>
        have rule := laws.power_rule nonzero isPower (Or.inl isLogarithm)
        have inverseOnly : HasOnly meaning enough (.pow base (.num (-1))) f⁻¹ :=
          .of_eval (laws.eval_inverse isBase nonzero)
        have firstTerm :=
          HasOnly.mkMul
            (.cons exponentOnly (.cons (.of_eval (evalLogarithm.trans isLogarithm)) .nil))
        have secondTerm :=
          HasOnly.mkMul
            (.cons (.of_eval isExponent) (.cons baseOnly (.cons inverseOnly .nil)))
        have product :=
          HasOnly.mkMul
            (.cons powerOnly
              (.cons (HasOnly.mkAdd (.cons firstTerm (.cons secondTerm .nil))) .nil))
        have same :
            [power, [[D g, logarithm].prod, [g, D f, f⁻¹].prod].sum].prod = D power := by
          rw [rule]
          simp only [List.prod_cons, List.prod_nil, List.sum_cons, List.sum_nil]
          ring
        rw [← same]
        exact product

end Powers

/-- The terms of the product rule add up to the derivative of the product. -/
theorem productTerms_hasOnly
    {before factors deriveds : List AtomTree}
    {earlier values : List K}
    (beforeValues : List.Forall₂ (fun tree u => eval meaning tree = some u) before earlier)
    (factorValues : List.Forall₂ (fun tree u => eval meaning tree = some u) factors values)
    (derivedOnly : List.Forall₂ (HasOnly meaning enough) deriveds (values.map D)) :
    ∃ terms,
      List.Forall₂ (HasOnly meaning enough) (productTerms before factors deriveds) terms ∧
        terms.sum = earlier.prod * D values.prod := by
  induction factorValues generalizing before earlier deriveds with
  | nil =>
      refine ⟨[], ?_, by simp⟩
      simp [productTerms]
  | @cons factor u factors values first later inductionHypothesis =>
      cases derivedOnly with
      | @cons derived _ deriveds _ firstOnly laterOnly =>
          have extended :=
            List.rel_append beforeValues (List.Forall₂.cons first .nil)
          obtain ⟨terms, termsOnly, total⟩ := inductionHypothesis extended laterOnly
          have others :
              List.Forall₂ (HasOnly meaning enough) (before ++ factors)
                (earlier ++ values) :=
            (List.rel_append beforeValues later).imp fun _ _ => HasOnly.of_eval
          refine ⟨_, .cons (HasOnly.mkMul (.cons firstOnly others)) termsOnly, ?_⟩
          rw [List.sum_cons, total]
          simp only [List.prod_cons, List.prod_append, List.prod_nil, D.leibniz,
            smul_eq_mul]
          ring

/-- The terms of the chain rule, one by one. -/
theorem chainTerms_hasOnly
    {partials deriveds : List AtomTree}
    {slopes values : List K}
    (slopeValues :
      List.Forall₂ (fun tree slope => eval meaning tree = some slope) partials slopes)
    (derivedOnly : List.Forall₂ (HasOnly meaning enough) deriveds (values.map D)) :
    List.Forall₂ (HasOnly meaning enough)
      (List.zipWith (fun outer inner => mkMul [outer, inner]) partials deriveds)
      (List.zipWith (fun slope u => slope * D u) slopes values) := by
  induction slopeValues generalizing deriveds values with
  | nil =>
      exact .nil
  | @cons outer slope partials slopes first _ inductionHypothesis =>
      cases values with
      | nil =>
          cases derivedOnly
          exact .nil
      | cons u values =>
          cases derivedOnly with
          | cons firstOnly laterOnly =>
              refine .cons ?_ (inductionHypothesis laterOnly)
              have product :=
                HasOnly.mkMul (.cons (.of_eval first) (.cons firstOnly .nil))
              rwa [List.prod_pair] at product

/-- A partial derivative without a value leaves its term without one. -/
theorem isSome_of_chainTerms
    {partials deriveds : List AtomTree}
    (sameLength : partials.length = deriveds.length)
    (all :
      ∀ term ∈ List.zipWith (fun outer inner => mkMul [outer, inner]) partials deriveds,
        (eval meaning term).isSome) :
    ∀ outer ∈ partials, (eval meaning outer).isSome := by
  induction partials generalizing deriveds with
  | nil =>
      exact nofun
  | cons outer partials inductionHypothesis =>
      cases deriveds with
      | nil =>
          cases sameLength
      | cons inner deriveds =>
          rw [List.zipWith_cons_cons, List.forall_mem_cons] at all
          rw [List.forall_mem_cons]
          refine ⟨?_, inductionHypothesis (Nat.succ.inj sameLength) all.2⟩
          rw [eval_mkMul_eq, Option.isSome_map, AtomCore.AtomTree.isSome_evalAll_iff] at all
          exact all.1 outer List.mem_cons_self

/-- The chain rule, from true partial derivatives. -/
theorem chainRule_hasOnly
    {partials deriveds : List AtomTree}
    {values : List K}
    {value : K}
    (sameLength : partials.length = values.length)
    (truePartials :
      ∀ slopes,
        evalAll meaning partials = some slopes →
        D value = (List.zipWith (fun slope u => slope * D u) slopes values).sum)
    (definedPartials : enough → (evalAll meaning partials).isSome)
    (derivedOnly : List.Forall₂ (HasOnly meaning enough) deriveds (values.map D)) :
    HasOnly meaning enough (chainRule partials deriveds) (D value) := by
  have derivedLength : deriveds.length = values.length := by
    simpa using derivedOnly.length_eq
  cases slopesOf : evalAll meaning partials with
  | some slopes =>
      rw [truePartials slopes slopesOf, chainRule]
      have slopeValues := evalAll_eq_some_iff.mp slopesOf
      split_ifs with noArgument
      · have noValue : values = [] := by
          rw [List.isEmpty_iff] at noArgument
          rw [← List.length_eq_zero_iff, ← derivedLength, noArgument, List.length_nil]
        apply HasOnly.of_eval
        rw [noValue, List.zipWith_nil_right, List.sum_nil, eval, Rat.cast_zero]
      · exact HasOnly.mkAdd (chainTerms_hasOnly slopeValues derivedOnly)
  | none =>
      have notEnough : ¬enough := by
        intro isEnough
        have slopesDefined := definedPartials isEnough
        rw [slopesOf] at slopesDefined
        cases slopesDefined
      refine .of_eval_none ?_ notEnough
      rw [chainRule]
      split_ifs with noArgument
      · -- without arguments there is no partial derivative to be undefined
        rw [List.isEmpty_iff] at noArgument
        have noPartial : partials = [] := by
          rw [← List.length_eq_zero_iff, sameLength, ← derivedLength, noArgument,
            List.length_nil]
        rw [noPartial] at slopesOf
        cases slopesOf
      · rw [eval_mkAdd_eq, Option.map_eq_none_iff]
        by_contra termsDefined
        have all :=
          isSome_of_chainTerms (by rw [sameLength, derivedLength])
            (AtomCore.AtomTree.isSome_evalAll_iff.mp
              (Option.isSome_iff_ne_none.mpr termsDefined))
        rw [← AtomCore.AtomTree.isSome_evalAll_iff, slopesOf] at all
        cases all

/-- The value of a list of one atom. -/
theorem evalAll_singleton
    {tree : AtomTree}
    {values : List K} :
    evalAll meaning [tree] = some values ↔
      ∃ u, eval meaning tree = some u ∧ values = [u] := by
  rw [evalAll_eq_some_iff]
  constructor
  · intro all
    cases all with
    | cons first later =>
        cases later
        exact ⟨_, first, rfl⟩
  · rintro ⟨u, isValue, rfl⟩
    exact .cons isValue .nil

/-- The chain rule for a function of one argument. -/
theorem truePartials_unaryHook
    {head : Symbol}
    {name : Text}
    {partialOf : AtomTree → AtomTree}
    (unary :
      ∀ {values : List K} {value : K},
        meaning.function head values = some value → values.length = 1)
    (slope_eq :
      ∀ {argument : AtomTree} {u value slope : K},
        eval meaning argument = some u →
        meaning.function head [u] = some value →
        eval meaning (partialOf argument) = some slope →
        D value = slope * D u) :
    TruePartials D meaning head (unaryHook name partialOf) := by
  intro arguments values value argumentValues isValue
  have isOne : arguments.length = 1 := by
    rw [(evalAll_eq_some_iff.mp argumentValues).length_eq, unary isValue]
  obtain ⟨argument, rfl⟩ := List.length_eq_one_iff.mp isOne
  obtain ⟨u, isArgument, rfl⟩ := evalAll_singleton.mp argumentValues
  refine ⟨[partialOf argument], rfl, rfl, ?_⟩
  intro slopes slopeValues
  obtain ⟨slope, isSlope, rfl⟩ := evalAll_singleton.mp slopeValues
  rw [slope_eq isArgument isValue isSlope]
  simp

/-- A call with one argument. -/
theorem eval_unary
    {head : Symbol}
    {argument : AtomTree}
    {u : K}
    (isArgument : eval meaning argument = some u) :
    eval meaning (.func head [argument]) = meaning.function head [u] := by
  simp [eval, evalAll, isArgument]

/-- A negated call with one argument. -/
theorem eval_negated
    {head : Symbol}
    {argument : AtomTree}
    {u : K}
    (isArgument : eval meaning argument = some u) :
    eval meaning (mkMul [.num (-1), .func head [argument]]) =
      (meaning.function head [u]).map Neg.neg := by
  rw [eval_mkMul_eq, evalAll, evalAll, eval_unary isArgument, eval]
  cases meaning.function head [u] with
  | none =>
      rfl
  | some value =>
      simp [evalAll]

/-- The built-in hooks return true partial derivatives. -/
theorem IsBuiltin.truePartials
    (laws : DifferentialLaws D meaning symbols variable_)
    {head : Symbol}
    {hook : DerivativeHook}
    (builtin : IsBuiltin symbols head hook) :
    TruePartials D meaning head hook := by
  cases builtin with
  | sin =>
      apply truePartials_unaryHook (laws.unary (by simp))
      intro argument u value slope isArgument isValue isSlope
      rw [eval_unary isArgument] at isSlope
      exact laws.sin_derivative isValue isSlope
  | cos =>
      apply truePartials_unaryHook (laws.unary (by simp))
      intro argument u value slope isArgument isValue isSlope
      rw [eval_negated isArgument, Option.map_eq_some_iff] at isSlope
      obtain ⟨sine, isSine, rfl⟩ := isSlope
      exact laws.cos_derivative isSine isValue
  | exp =>
      apply truePartials_unaryHook (laws.unary (by simp))
      intro argument u value slope isArgument isValue isSlope
      rw [eval_unary isArgument, isValue] at isSlope
      rw [← Option.some.inj isSlope]
      exact laws.exp_derivative isValue
  | ln =>
      apply truePartials_unaryHook (laws.unary (by simp))
      intro argument u value slope isArgument isValue isSlope
      obtain ⟨nonzero, rule⟩ := laws.ln_derivative isValue
      rw [laws.eval_inverse isArgument nonzero, Option.some.injEq] at isSlope
      rw [rule, ← isSlope, div_eq_inv_mul]

/-- Every hook is a built-in one or returns true partial derivatives. -/
def HooksTrue
    (D : Derivation ℤ K K)
    (meaning : Interpretation K)
    (symbols : CalculusSymbols)
    (registry : HookRegistry) : Prop :=
  ∀ head hook,
    registry.get head = some hook →
    IsBuiltin symbols head hook ∨ TruePartials D meaning head hook

section Main

variable {table : Snapshot} {registry : HookRegistry}

theorem HooksTrue.truePartials
    (hooksTrue : HooksTrue D meaning symbols registry)
    (laws : DifferentialLaws D meaning symbols variable_)
    {head : Symbol}
    {hook : DerivativeHook}
    (registered : registry.get head = some hook) :
    TruePartials D meaning head hook := by
  rcases hooksTrue head hook registered with builtin | given
  · exact builtin.truePartials laws
  · exact given

/-- What has a value has parts with values. -/
theorem isSome_eval_child
    {tree child : AtomTree}
    (member : child ∈ tree.children)
    (isSome : (eval meaning tree).isSome) :
    (eval meaning child).isSome := by
  have every : (evalAll meaning tree.children).isSome := by
    cases tree with
    | num | var =>
        rfl
    | add | mul =>
        rwa [eval, Option.isSome_map] at isSome
    | pow base exponent =>
        obtain ⟨value, isValue⟩ := Option.isSome_iff_exists.mp isSome
        obtain ⟨f, g, isBase, isExponent, -⟩ := AtomCore.AtomTree.eval_pow_iff.mp isValue
        simp [AtomCore.AtomTree.children, evalAll, isBase, isExponent]
    | func head arguments =>
        obtain ⟨value, isValue⟩ := Option.isSome_iff_exists.mp isSome
        rw [eval, Option.bind_eq_some_iff] at isValue
        obtain ⟨values, argumentValues, -⟩ := isValue
        exact Option.isSome_iff_exists.mpr ⟨values, argumentValues⟩
  exact AtomCore.AtomTree.isSome_evalAll_iff.mp every child member

/-- Hooks that return true partial derivatives answer every call that has a value. -/
theorem everywhere_answered
    (laws : DifferentialLaws D meaning symbols variable_)
    (hooksTrue : HooksTrue D meaning symbols registry)
    {tree : AtomTree}
    (known : tree.Everywhere (HasHook registry))
    (isSome : (eval meaning tree).isSome) :
    tree.Everywhere (Answered registry) := by
  induction known with
  | @node tree here _ inductionHypothesis =>
      refine .node ?_ fun child member =>
        inductionHypothesis child member (isSome_eval_child member isSome)
      cases tree with
      | num | var | add | mul | pow =>
          trivial
      | func head arguments =>
          obtain ⟨hook, registered⟩ := Option.isSome_iff_exists.mp here
          obtain ⟨value, isValue⟩ := Option.isSome_iff_exists.mp isSome
          rw [eval, Option.bind_eq_some_iff] at isValue
          obtain ⟨values, argumentValues, isCall⟩ := isValue
          obtain ⟨partials, returned, sameLength, -⟩ :=
            hooksTrue.truePartials laws registered argumentValues isCall
          exact ⟨hook, partials, registered, returned, sameLength⟩

/-- Derivatives of children, from those of each child. -/
theorem derivativeAll_hasOnly
    {enough : Prop}
    {children deriveds : List AtomTree}
    {values : List K}
    (all :
      ∀ child ∈ children, ∀ derived : AtomTree,
        derivativeImpl table symbols registry variable_ child = .ok derived →
        ∀ value : K,
          eval meaning child = some value →
          HasOnly meaning enough derived (D value))
    (returned :
      derivativeAll table symbols registry variable_ children = .ok deriveds)
    (childValues : evalAll meaning children = some values) :
    List.Forall₂ (HasOnly meaning enough) deriveds (values.map D) := by
  have derivatives := forall₂_of_derivativeAll returned
  rw [evalAll_eq_some_iff] at childValues
  clear returned
  induction childValues generalizing deriveds with
  | nil =>
      cases derivatives
      exact .nil
  | @cons child value children values first _ inductionHypothesis =>
      cases derivatives with
      | @cons _ derived _ deriveds firstReturned laterReturned =>
          exact .cons (all child List.mem_cons_self derived firstReturned value first)
            (inductionHypothesis
              (fun other member => all other (List.mem_cons_of_mem _ member)) laterReturned)

/-- A constant has the number 0 for its derivative. -/
theorem isZero_of_constant
    {tree derived : AtomTree}
    (constant : Constant variable_ tree)
    (returned : derivativeImpl table symbols registry variable_ tree = .ok derived) :
    isZero derived = true := by
  cases tree with
  | num value =>
      cases returned
      rfl
  | var symbol =>
      cases returned
      rw [if_neg constant]
      rfl
  | add | mul | pow | func =>
      exact constant.elim

/-- The derivative of an atom has the derivative of its value, if it has any. -/
theorem derivativeImpl_hasOnly
    [CharZero K]
    (laws : DifferentialLaws D meaning symbols variable_)
    (hooksTrue : HooksTrue D meaning symbols registry)
    {tree derived : AtomTree}
    (nonzero : NonzeroBases meaning tree)
    (returned : derivativeImpl table symbols registry variable_ tree = .ok derived)
    {value : K}
    (isValue : eval meaning tree = some value) :
    HasOnly meaning (tree.Everywhere (SlopeDefined meaning symbols registry variable_))
      derived (D value) := by
  induction nonzero generalizing derived value with
  | num number =>
      cases returned
      rw [eval, Option.some.injEq] at isValue
      apply HasOnly.of_eval
      rw [← isValue, derivation_ratCast, eval, Rat.cast_zero]
  | var symbol =>
      cases returned
      rw [eval, Option.some.injEq] at isValue
      apply HasOnly.of_eval
      rw [← isValue, eval]
      split_ifs with same
      · rw [same, laws.variable_derivative, Rat.cast_one]
      · rw [laws.other_derivative symbol same, Rat.cast_zero]
  | @add terms _ inductionHypothesis =>
      obtain ⟨deriveds, allReturned, rfl⟩ := map_eq_ok.mp returned
      rw [eval, Option.map_eq_some_iff] at isValue
      obtain ⟨values, termValues, rfl⟩ := isValue
      have total := HasOnly.mkAdd (derivativeAll_hasOnly
        (fun child member _ childReturned _ isChild =>
          (inductionHypothesis child member childReturned isChild).mono
            fun (defined : (AtomTree.add terms).Everywhere _) => defined.child member)
        allReturned termValues)
      rwa [← map_list_sum] at total
  | @mul factors _ inductionHypothesis =>
      obtain ⟨deriveds, allReturned, rfl⟩ := map_eq_ok.mp returned
      rw [eval, Option.map_eq_some_iff] at isValue
      obtain ⟨values, factorValues, rfl⟩ := isValue
      obtain ⟨terms, termsOnly, total⟩ :=
        productTerms_hasOnly .nil (evalAll_eq_some_iff.mp factorValues)
          (derivativeAll_hasOnly
            (fun child member _ childReturned _ isChild =>
              (inductionHypothesis child member childReturned isChild).mono
                fun (defined : (AtomTree.mul factors).Everywhere _) => defined.child member)
            allReturned factorValues)
      rw [List.prod_nil, one_mul] at total
      rw [← total]
      exact HasOnly.mkAdd termsOnly
  | @pow base exponent _ _ baseNonzero baseHypothesis exponentHypothesis =>
      obtain ⟨baseDerivative, baseReturned, rest⟩ := bind_eq_ok.mp returned
      obtain ⟨exponentDerivative, exponentReturned, ended⟩ := bind_eq_ok.mp rest
      cases ended
      obtain ⟨f, g, isBase, isExponent, isPower⟩ :=
        AtomCore.AtomTree.eval_pow_iff.mp isValue
      have nonzero : f ≠ 0 := by
        rintro rfl
        exact baseNonzero isBase
      refine derivativePow_hasOnly laws ?_ ?_ isBase isExponent nonzero isPower
        ((baseHypothesis baseReturned isBase).mono fun defined => defined.child ?_)
        ((exponentHypothesis exponentReturned isExponent).mono fun defined =>
          defined.child ?_)
      · exact fun defined => (defined.root f g isBase isExponent).1
      · intro defined varies
        rcases (defined.root f g isBase isExponent).2 with constant | isDefined
        · rw [isZero_of_constant constant exponentReturned] at varies
          cases varies
        · exact isDefined
      · simp [AtomCore.AtomTree.children]
      · simp [AtomCore.AtomTree.children]
  | @func head arguments _ inductionHypothesis =>
      rw [derivativeImpl] at returned
      cases registered : registry.get head with
      | none =>
          rw [registered] at returned
          cases returned
      | some hook =>
          rw [registered] at returned
          obtain ⟨partials, hookReturned, rest⟩ := bind_eq_ok.mp returned
          split_ifs at rest with sameLength
          obtain ⟨deriveds, allReturned, rfl⟩ := map_eq_ok.mp rest
          rw [eval, Option.bind_eq_some_iff] at isValue
          obtain ⟨values, argumentValues, isCall⟩ := isValue
          obtain ⟨answer, answered, -, truePartials⟩ :=
            hooksTrue.truePartials laws registered argumentValues isCall
          rw [hookReturned, Except.ok.injEq] at answered
          rw [← answered] at truePartials
          refine chainRule_hasOnly ?_ truePartials ?_ (derivativeAll_hasOnly
            (fun child member _ childReturned _ isChild =>
              (inductionHypothesis child member childReturned isChild).mono
                fun (defined : (AtomTree.func head arguments).Everywhere _) =>
                  defined.child member)
            allReturned argumentValues)
          · rw [not_not.mp sameLength, (evalAll_eq_some_iff.mp argumentValues).length_eq]
          · exact fun defined => defined.root hook partials registered hookReturned

/-- Registering the built-in hooks adds only built-in hooks. -/
theorem HooksTrue.ensureBuiltinHooksRegistered
    (hooksTrue : HooksTrue D meaning symbols registry) :
    HooksTrue D meaning symbols (registry.ensureBuiltinHooksRegistered symbols) := by
  have set :
      ∀ {given : HookRegistry} {head : Symbol} {hook : DerivativeHook},
        HooksTrue D meaning symbols given →
        IsBuiltin symbols head hook →
        HooksTrue D meaning symbols (given.set head hook) := by
    intro given head hook before builtin other found registered
    rw [HookRegistry.get, HookRegistry.set, List.lookup_cons] at registered
    split at registered
    · rename_i same
      rw [beq_iff_eq] at same
      subst other
      cases registered
      exact Or.inl builtin
    · exact before other found registered
  rw [HookRegistry.ensureBuiltinHooksRegistered]
  split_ifs
  · exact hooksTrue
  · exact set (set (set (set hooksTrue .sin) .cos) .exp) .ln

/--
Differentiating an atom with a value whose power bases are not 0 returns an atom that has
no value but the derivative of the atom's value, and has this value when the powers,
logarithms and partial derivatives that it uses have values.
-/
theorem derivative_value
    [CharZero K]
    (laws : DifferentialLaws D meaning symbols variable_)
    (hooksTrue :
      HooksTrue D meaning symbols (registry.ensureBuiltinHooksRegistered symbols))
    {tree : AtomTree}
    (known : tree.Everywhere (HasHook (registry.ensureBuiltinHooksRegistered symbols)))
    (nonzero : NonzeroBases meaning tree)
    {value : K}
    (isValue : eval meaning tree = some value) :
    ∃ derived,
      (derivative table symbols registry tree variable_).1 = .ok derived ∧
        (∀ slope, eval meaning derived = some slope → slope = D value) ∧
        (tree.Everywhere
            (SlopeDefined meaning symbols (registry.ensureBuiltinHooksRegistered symbols)
              variable_) →
          eval meaning derived = some (D value)) := by
  have isSome : (eval meaning tree).isSome := by
    rw [isValue]
    rfl
  obtain ⟨derived, returned⟩ :=
    (derivativeImpl_returns_iff tree).mpr (everywhere_answered laws hooksTrue known isSome)
  exact ⟨derived, returned, derivativeImpl_hasOnly laws hooksTrue nonzero returned isValue⟩

end Main

/-- A derivation over the rational numbers is one over the integers. -/
def overIntegers [Algebra ℚ K] (D : Derivation ℚ K K) : Derivation ℤ K K :=
  D.restrictScalars ℤ

section RationalFunctions

open Polynomial (X)

/-- The field of rational functions in one variable. -/
abbrev RationalFunctions : Type :=
  RatFunc ℚ

/-- Differentials of rational functions are those of polynomials, localized. -/
private theorem isBaseChange_differentials :
    IsBaseChange RationalFunctions
      (KaehlerDifferential.map ℚ ℚ (Polynomial ℚ) RationalFunctions) :=
  have : Algebra.FormallyEtale (Polynomial ℚ) RationalFunctions :=
    Algebra.FormallyEtale.of_isLocalization (nonZeroDivisors (Polynomial ℚ))
  KaehlerDifferential.isBaseChange_of_formallyEtale ℚ (Polynomial ℚ) RationalFunctions

/-- The derivative of rational functions. -/
noncomputable def rationalDerivative :
    Derivation ℚ RationalFunctions RationalFunctions :=
  (isBaseChange_differentials.lift
    ((Algebra.linearMap (Polynomial ℚ) RationalFunctions).compDer
      Polynomial.derivative').liftKaehlerDifferential).compDer
    (KaehlerDifferential.D ℚ RationalFunctions)

private theorem rationalDerivative_algebraMap
    (polynomial : Polynomial ℚ) :
    rationalDerivative (algebraMap (Polynomial ℚ) RationalFunctions polynomial) =
      algebraMap (Polynomial ℚ) RationalFunctions (Polynomial.derivative polynomial) := by
  have isMapped :
      KaehlerDifferential.D ℚ RationalFunctions
          (algebraMap (Polynomial ℚ) RationalFunctions polynomial) =
        KaehlerDifferential.map ℚ ℚ (Polynomial ℚ) RationalFunctions
          (KaehlerDifferential.D ℚ (Polynomial ℚ) polynomial) :=
    (KaehlerDifferential.map_D ℚ ℚ (Polynomial ℚ) RationalFunctions polynomial).symm
  change isBaseChange_differentials.lift _ (KaehlerDifferential.D ℚ _ _) = _
  rw [isMapped, IsBaseChange.lift_eq, Derivation.liftKaehlerDifferential_comp_D]
  rfl

/-- The variable as a rational function. -/
noncomputable def indeterminate : RationalFunctions :=
  algebraMap (Polynomial ℚ) RationalFunctions X

open Classical in
/-- Rational functions with integer powers, the exponential of 0 and a function of the
caller's that squares. -/
noncomputable def rationalMeaning : Interpretation RationalFunctions where
  variableValue symbol := if symbol = ⟨0⟩ then indeterminate else 0
  function symbol
    | [u] =>
      if symbol = ⟨5⟩ then some (u * u)
      else if symbol = ⟨3⟩ ∧ u = 0 then some 1
      else none
    | _ => none
  power base exponent :=
    if isInteger : ∃ n : ℤ, exponent = n then
      some (base ^ isInteger.choose)
    else
      none

/-- The symbols of the functions in a table after the variable. -/
def laterSymbols : CalculusSymbols where
  sin := ⟨1⟩
  cos := ⟨2⟩
  exp := ⟨3⟩
  ln := ⟨4⟩

private theorem power_rationalMeaning
    (base : RationalFunctions)
    (n : ℤ) :
    rationalMeaning.power base n = some (base ^ n) := by
  have isInteger : ∃ m : ℤ, (n : RationalFunctions) = m := ⟨n, rfl⟩
  have same : isInteger.choose = n := (Int.cast_injective isInteger.choose_spec).symm
  rw [rationalMeaning]
  simp only
  rw [dif_pos isInteger, same]

private theorem function_rationalMeaning
    {head : Symbol}
    {values : List RationalFunctions}
    {value : RationalFunctions}
    (isValue : rationalMeaning.function head values = some value) :
    ∃ u, values = [u] ∧ (head = ⟨5⟩ ∧ value = u * u ∨ head = ⟨3⟩ ∧ u = 0 ∧ value = 1) := by
  rw [rationalMeaning] at isValue
  simp only at isValue
  split at isValue
  · rename_i u
    refine ⟨u, rfl, ?_⟩
    split_ifs at isValue with isSquare isExponential
    · exact Or.inl ⟨isSquare, (Option.some.inj isValue).symm⟩
    · exact Or.inr ⟨isExponential.1, isExponential.2, (Option.some.inj isValue).symm⟩
  · cases isValue

private theorem laws_rationalMeaning :
    DifferentialLaws (overIntegers rationalDerivative) rationalMeaning laterSymbols ⟨0⟩ where
  variable_derivative := by
    change rationalDerivative (algebraMap _ _ X) = 1
    rw [rationalDerivative_algebraMap, Polynomial.derivative_X, map_one]
  other_derivative symbol differs := by
    simp only [rationalMeaning]
    rw [if_neg differs]
    exact map_zero _
  sin_derivative isSine := by
    obtain ⟨_, -, ⟨isSquare, -⟩ | ⟨isExponential, -⟩⟩ := function_rationalMeaning isSine
    · exact absurd isSquare (by decide)
    · exact absurd isExponential (by decide)
  cos_derivative _ isCosine := by
    obtain ⟨_, -, ⟨isSquare, -⟩ | ⟨isExponential, -⟩⟩ := function_rationalMeaning isCosine
    · exact absurd isSquare (by decide)
    · exact absurd isExponential (by decide)
  exp_derivative isExponential := by
    obtain ⟨u, same, ⟨isSquare, -⟩ | ⟨-, isZero, isOne⟩⟩ :=
      function_rationalMeaning isExponential
    · exact absurd isSquare (by decide)
    · rw [(List.cons.inj same).1, isZero, isOne, map_zero, mul_zero]
      exact rationalDerivative.map_one_eq_zero
  ln_derivative isLogarithm := by
    obtain ⟨_, -, ⟨isSquare, -⟩ | ⟨isExponential, -⟩⟩ := function_rationalMeaning isLogarithm
    · exact absurd isSquare (by decide)
    · exact absurd isExponential (by decide)
  integer_power n _ := power_rationalMeaning _ n
  power_derivative := by
    intro f g power logarithm _ notInteger isPower
    rw [rationalMeaning] at isPower
    simp only at isPower
    rw [dif_neg (not_exists.mpr notInteger)] at isPower
    cases isPower
  power_predecessor := by
    intro f g power previous _ notInteger isPower
    rw [rationalMeaning] at isPower
    simp only at isPower
    rw [dif_neg (not_exists.mpr notInteger)] at isPower
    cases isPower
  unary _ isValue := by
    obtain ⟨u, rfl, -⟩ := function_rationalMeaning isValue
    rfl

private theorem indeterminate_ne_zero : indeterminate ≠ 0 := by
  intro isZero
  have slope := laws_rationalMeaning.variable_derivative
  rw [rationalMeaning] at slope
  simp [isZero] at slope

private theorem truePartials_squareHook :
    TruePartials (overIntegers rationalDerivative) rationalMeaning ⟨5⟩ squareHook := by
  apply truePartials_unaryHook
  · intro values value isValue
    obtain ⟨u, rfl, -⟩ := function_rationalMeaning isValue
    rfl
  · intro argument u value slope isArgument isValue isSlope
    have isSquare : value = u * u := by
      obtain ⟨_, same, ⟨-, isSquare⟩ | ⟨isExponential, -⟩⟩ := function_rationalMeaning isValue
      · rw [isSquare, (List.cons.inj same).1]
      · exact absurd isExponential (by decide)
    rw [eval_mkMul_eq] at isSlope
    simp only [evalAll, eval, isArgument, Option.bind_some, Option.map_some,
      Option.some.injEq] at isSlope
    have product : overIntegers rationalDerivative (u * u) =
        u • overIntegers rationalDerivative u + u • overIntegers rationalDerivative u :=
      rationalDerivative.leibniz u u
    rw [isSquare, product, ← isSlope]
    simp only [smul_eq_mul, List.prod_cons, List.prod_nil]
    push_cast
    ring

/-- `x^2·square(x) + exp(0·x)`. -/
def squareExpression : AtomTree :=
  .add [.mul [.pow (.var ⟨0⟩) (.num 2), .func ⟨5⟩ [.var ⟨0⟩]],
    .func ⟨3⟩ [.mul [.num 0, .var ⟨0⟩]]]

private theorem everywhere_squareExpression
    {condition : AtomTree → Prop}
    (numbers : ∀ value, condition (.num value))
    (symbols : ∀ symbol, condition (.var symbol))
    (sum : condition squareExpression)
    (products : ∀ factors, condition (.mul factors))
    (power : condition (.pow (.var ⟨0⟩) (.num 2)))
    (square : condition (.func ⟨5⟩ [.var ⟨0⟩]))
    (exponential : condition (.func ⟨3⟩ [.mul [.num 0, .var ⟨0⟩]])) :
    squareExpression.Everywhere condition := by
  have isVariable : (AtomTree.var ⟨0⟩).Everywhere condition := .node (symbols _) nofun
  have isNumber : ∀ value, (AtomTree.num value).Everywhere condition :=
    fun value => .node (numbers value) nofun
  have isPower : (AtomTree.pow (.var ⟨0⟩) (.num 2)).Everywhere condition :=
    .node power (by simp [children, isVariable, isNumber])
  have isSquare : (AtomTree.func ⟨5⟩ [.var ⟨0⟩]).Everywhere condition :=
    .node square (by simp [children, isVariable])
  have isProduct : (AtomTree.mul [.num 0, .var ⟨0⟩]).Everywhere condition :=
    .node (products _) (by simp [children, isVariable, isNumber])
  have isExponential : (AtomTree.func ⟨3⟩ [.mul [.num 0, .var ⟨0⟩]]).Everywhere condition :=
    .node exponential (by simp [children, isProduct])
  have isMonomial : (AtomTree.mul [.pow (.var ⟨0⟩) (.num 2),
      .func ⟨5⟩ [.var ⟨0⟩]]).Everywhere condition :=
    .node (products _) (by simp [children, isPower, isSquare])
  exact .node sum (by simp [squareExpression, children, isMonomial, isExponential])

/-- The derivative of `x^2·square(x) + exp(0·x)` with the caller's hook for `square`. -/
theorem derivative_value_square :
    ∃ derived,
      (derivative .empty laterSymbols ((HookRegistry.mk [] false).set ⟨5⟩ squareHook)
          squareExpression ⟨0⟩).1 = .ok derived ∧
        eval rationalMeaning derived =
          some (overIntegers rationalDerivative
            (indeterminate ^ (2 : ℤ) * (indeterminate * indeterminate) + 1)) := by
  have isVariable : rationalMeaning.variableValue ⟨0⟩ = indeterminate := by
    simp [rationalMeaning]
  have square : rationalMeaning.function ⟨5⟩ [indeterminate] =
      some (indeterminate * indeterminate) := by
    simp [rationalMeaning]
  have exponential : rationalMeaning.function ⟨3⟩ [0] = some 1 := by
    simp [rationalMeaning]
  have power : ∀ n : ℤ, rationalMeaning.power indeterminate n = some (indeterminate ^ n) :=
    power_rationalMeaning indeterminate
  have one := power 1
  have two := power 2
  push_cast at one two
  have hooksTrue : HooksTrue (overIntegers rationalDerivative) rationalMeaning laterSymbols
      ((HookRegistry.mk [] false).set ⟨5⟩ squareHook) := by
    intro head hook registered
    rw [HookRegistry.get, HookRegistry.set, List.lookup_cons] at registered
    split at registered
    · rename_i same
      rw [beq_iff_eq] at same
      cases registered
      rw [same]
      exact Or.inr truePartials_squareHook
    · cases registered
  have known := @everywhere_squareExpression (HasHook
    (((HookRegistry.mk [] false).set ⟨5⟩ squareHook).ensureBuiltinHooksRegistered laterSymbols))
    (fun _ => trivial) (fun _ => trivial) trivial (fun _ => trivial) trivial rfl rfl
  have nonzero : NonzeroBases rationalMeaning squareExpression := by
    have base : NonzeroBases rationalMeaning (.pow (.var ⟨0⟩) (.num 2)) := by
      refine .pow (.var _) (.num _) ?_
      rw [eval, isVariable]
      exact fun isZero => indeterminate_ne_zero (Option.some.inj isZero)
    have argument : NonzeroBases rationalMeaning (.mul [.num 0, .var ⟨0⟩]) :=
      .mul (by simp [NonzeroBases.num, NonzeroBases.var])
    have first : NonzeroBases rationalMeaning (.func ⟨5⟩ [.var ⟨0⟩]) :=
      .func _ (by simp [NonzeroBases.var])
    have second : NonzeroBases rationalMeaning (.func ⟨3⟩ [.mul [.num 0, .var ⟨0⟩]]) :=
      .func _ (by simp [argument])
    have product : NonzeroBases rationalMeaning
        (.mul [.pow (.var ⟨0⟩) (.num 2), .func ⟨5⟩ [.var ⟨0⟩]]) :=
      .mul (by simp [base, first])
    exact .add (by simp [product, second])
  have isValue : eval rationalMeaning squareExpression =
      some (indeterminate ^ (2 : ℤ) * (indeterminate * indeterminate) + 1) := by
    simp [squareExpression, eval, evalAll, isVariable, square, exponential, two]
  obtain ⟨derived, returned, -, isDerived⟩ :=
    @derivative_value _ _ _ _ laterSymbols ⟨0⟩ .empty _ _ laws_rationalMeaning
      hooksTrue.ensureBuiltinHooksRegistered _ known nonzero _ isValue
  refine ⟨derived, returned, isDerived (everywhere_squareExpression (fun _ => trivial)
    (fun _ => trivial) trivial (fun _ => trivial) ?_ ?_ ?_)⟩
  · intro f g isBase isExponent
    cases isBase
    cases isExponent
    rw [isVariable]
    refine ⟨?_, Or.inl trivial⟩
    rw [show ((2 : ℚ) : RationalFunctions) - 1 = 1 by norm_num, one]
    rfl
  · intro hook partials registered returned
    cases registered
    cases returned
    simp [eval_mkMul_eq, evalAll, eval]
  · intro hook partials registered returned
    cases registered
    cases returned
    simp [evalAll, eval, laterSymbols, exponential]

end RationalFunctions

end CalculusCore
