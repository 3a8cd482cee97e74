import Stocas.Poly.RationalPolynomialValue

namespace PolyCore

open MachinePolynomial (constant)
open SymbolTable (Symbol)
open WrappedExponents (Below wrap)

/-!
# The field of rational functions

The constructor always returns the canonical form of its quotient.  The operations
are those of the field of rational functions exactly where their fractions survive
32-bit exponents, and a run of operations that all survive obeys the field axioms.
-/

namespace RationalPolynomial

variable {numVars : ℕ} {vars : Fin numVars → Symbol}

/-- Values are canonical forms of rational functions. -/
structure CanonicalForm (gcd : ReducingGcd vars) : Prop where
  construct_zero :
    ∀ numerator denominator : MachinePolynomial vars ℚ,
      denominator.toMvPolynomial = 0 →
        construct gcd numerator denominator =
          .error (.domainError "RationalPolynomial: zero denominator")
  construct_returns :
    ∀ numerator denominator : MachinePolynomial vars ℚ,
      denominator.toMvPolynomial ≠ 0 →
        Answers gcd numerator denominator →
          ∃ result, construct gcd numerator denominator = .ok result
  construct_canonical :
    ∀ (numerator denominator : MachinePolynomial vars ℚ) result,
      construct gcd numerator denominator = .ok result →
        IsRelPrime result.numerator.toMvPolynomial result.denominator.toMvPolynomial ∧
          MonomialOrder.lex.Monic result.denominator.toMvPolynomial ∧
          result.value = fraction numerator.toMvPolynomial denominator.toMvPolynomial
  fromPolynomial_value :
    ∀ numerator : MachinePolynomial vars ℚ,
      (fromPolynomial numerator).value = fraction numerator.toMvPolynomial 1
  eq_iff :
    ∀ left right : RationalPolynomial vars, left = right ↔ left.value = right.value

/-- The operations are exact where their fractions survive, and nowhere else. -/
structure ExactOperations (gcd : ReducingGcd vars) : Prop where
  add_iff :
    ∀ left right : RationalPolynomial vars,
      Answers gcd
          (left.numerator * right.denominator + right.numerator * left.denominator)
          (left.denominator * right.denominator) →
        ((∃ result,
            add gcd left right = .ok result ∧ result.value = left.value + right.value) ↔
          SumSurvives left right)
  sub_iff :
    ∀ left right : RationalPolynomial vars,
      Answers gcd
          (left.numerator * right.denominator - right.numerator * left.denominator)
          (left.denominator * right.denominator) →
        ((∃ result,
            sub gcd left right = .ok result ∧ result.value = left.value - right.value) ↔
          DifferenceSurvives left right)
  mul_iff :
    ∀ left right : RationalPolynomial vars,
      Answers gcd (left.numerator * right.numerator)
          (left.denominator * right.denominator) →
        ((∃ result,
            mul gcd left right = .ok result ∧ result.value = left.value * right.value) ↔
          ProductSurvives left right)
  div_iff :
    ∀ left right : RationalPolynomial vars,
      right.isZero = false →
        Answers gcd (left.numerator * right.denominator)
            (left.denominator * right.numerator) →
          ((∃ result,
              div gcd left right = .ok result ∧
                result.value = left.value / right.value) ↔
            QuotientSurvives left right)
  neg_value : ∀ rational : RationalPolynomial vars, (-rational).value = -rational.value
  inv_value :
    ∀ rational : RationalPolynomial vars,
      rational.isZero = false →
        Answers gcd rational.denominator rational.numerator →
          ∃ result, inv gcd rational = .ok result ∧ result.value = rational.value⁻¹
  div_zero :
    ∀ left right : RationalPolynomial vars,
      right.isZero = true →
        div gcd left right =
          .error (.domainError "RationalPolynomial: zero denominator")
  inv_zero :
    ∀ rational : RationalPolynomial vars,
      rational.isZero = true →
        inv gcd rational =
          .error
            (.domainError
              "RationalPolynomialField::inv: zero has no multiplicative inverse")
  divRem_zero :
    ∀ left right : RationalPolynomial vars,
      right.isZero = true →
        divRem gcd left right =
          .error
            (.domainError
              "RationalPolynomialField::inv: zero has no multiplicative inverse")

/-- An addition that returns its result, and whose sum survives. -/
structure Adds
    (gcd : ReducingGcd vars)
    (left right result : RationalPolynomial vars) : Prop where
  returns : add gcd left right = .ok result
  survives : SumSurvives left right

/-- A multiplication that returns its result, and whose product survives. -/
structure Multiplies
    (gcd : ReducingGcd vars)
    (left right result : RationalPolynomial vars) : Prop where
  returns : mul gcd left right = .ok result
  survives : ProductSurvives left right

/-- A division that returns its result, and whose quotient survives. -/
structure Divides
    (gcd : ReducingGcd vars)
    (left right result : RationalPolynomial vars) : Prop where
  returns : div gcd left right = .ok result
  survives : QuotientSurvives left right

/--
The field axioms under `operator==`.  Commutativity, neutral and opposite elements
need nothing, the others that the fractions of their runs survive.
-/
structure FieldAxioms (gcd : ReducingGcd vars) : Prop where
  add_comm : ∀ a b : RationalPolynomial vars, add gcd a b = add gcd b a
  add_assoc :
    ∀ {a b c ab bc left right : RationalPolynomial vars},
      Adds gcd a b ab → Adds gcd ab c left → Adds gcd b c bc → Adds gcd a bc right →
        left = right
  zero_add :
    ∀ {a result : RationalPolynomial vars}, add gcd zero a = .ok result → result = a
  neg_add :
    ∀ {a result : RationalPolynomial vars}, add gcd (-a) a = .ok result → result = zero
  sub_eq : ∀ a b : RationalPolynomial vars, sub gcd a b = add gcd a (-b)
  mul_comm : ∀ a b : RationalPolynomial vars, mul gcd a b = mul gcd b a
  mul_assoc :
    ∀ {a b c ab bc left right : RationalPolynomial vars},
      Multiplies gcd a b ab → Multiplies gcd ab c left → Multiplies gcd b c bc →
        Multiplies gcd a bc right → left = right
  one_mul :
    ∀ {a result : RationalPolynomial vars}, mul gcd one a = .ok result → result = a
  inv_mul :
    ∀ {a inverse result : RationalPolynomial vars},
      inv gcd a = .ok inverse → mul gcd inverse a = .ok result → result = one
  div_eq :
    ∀ {a b inverse left right : RationalPolynomial vars},
      Divides gcd a b left → inv gcd b = .ok inverse → Multiplies gcd a inverse right →
        left = right
  mul_add :
    ∀ {a b c bc ab ac left right : RationalPolynomial vars},
      Adds gcd b c bc → Multiplies gcd a bc left → Multiplies gcd a b ab →
        Multiplies gcd a c ac → Adds gcd ab ac right → left = right
  zero_ne_one : (zero : RationalPolynomial vars) ≠ one

variable {gcd : ReducingGcd vars} {left right result : RationalPolynomial vars}

theorem isZero_iff :
    left.isZero = true ↔ left.numerator.toMvPolynomial = 0 :=
  MultivariatePolynomial.isZero_iff

theorem numerator_ne_zero
    (nonzero : left.isZero = false) :
    left.numerator.toMvPolynomial ≠ 0 :=
  fun isZero => Bool.eq_false_iff.mp nonzero (isZero_iff.mpr isZero)

theorem value_fromPolynomial
    (numerator : MachinePolynomial vars ℚ) :
    (fromPolynomial numerator).value = fraction numerator.toMvPolynomial 1 := by
  rw [value, fromPolynomial, MachinePolynomial.toMvPolynomial_constant, map_one]

theorem value_neg : (-left).value = -left.value := by
  rw [value, value, ← fraction_neg, ← MachinePolynomial.toMvPolynomial_neg]
  rfl

theorem value_inv
    (returned : inv gcd left = .ok result) :
    left.isZero = false ∧ result.value = left.value⁻¹ := by
  rw [inv] at returned
  split_ifs at returned with isZero
  refine ⟨Bool.eq_false_iff.mpr isZero, ?_⟩
  rw [(value_of_construct returned).2, value, fraction_inv]

theorem Adds.value
    (adds : Adds gcd left right result) :
    result.value = left.value + right.value := by
  rw [((computes_add left right).value_eq_iff adds.returns).mpr adds.survives,
    fraction_add left.denominator_ne_zero right.denominator_ne_zero]
  rfl

theorem Multiplies.value
    (multiplies : Multiplies gcd left right result) :
    result.value = left.value * right.value := by
  rw [((computes_mul left right).value_eq_iff multiplies.returns).mpr multiplies.survives,
    fraction_mul]
  rfl

theorem Divides.value
    (divides : Divides gcd left right result)
    (nonzero : right.isZero = false) :
    result.value = left.value / right.value := by
  rw [((computes_div left (numerator_ne_zero nonzero)).value_eq_iff divides.returns).mpr
      divides.survives, fraction_div]
  rfl

theorem canonicalForm (gcd : ReducingGcd vars) : CanonicalForm gcd where
  construct_zero _ _ isZero := construct_zero isZero
  construct_returns _ _ nonzero answers := by
    obtain ⟨_, returned⟩ := answers nonzero
    exact construct_of_gcd nonzero returned
  construct_canonical _ _ result returned :=
    ⟨result.lowest.coprime, result.lowest.monic, (value_of_construct returned).2⟩
  fromPolynomial_value := value_fromPolynomial
  eq_iff _ _ := eq_iff_value_eq

theorem exactOperations (gcd : ReducingGcd vars) : ExactOperations gcd where
  add_iff left right answers := by
    rw [value, value, ← fraction_add left.denominator_ne_zero right.denominator_ne_zero]
    exact (computes_add left right).construct_iff answers
  sub_iff left right answers := by
    rw [← fraction_sub]
    exact (computes_sub left right).construct_iff answers
  mul_iff left right answers := by
    rw [value, value, ← fraction_mul]
    exact (computes_mul left right).construct_iff answers
  div_iff left right nonzero answers := by
    rw [value, value, ← fraction_div]
    exact (computes_div left (numerator_ne_zero nonzero)).construct_iff answers
  neg_value _ := value_neg
  inv_value rational nonzero answers := by
    obtain ⟨_, found⟩ := answers (numerator_ne_zero nonzero)
    obtain ⟨result, returned⟩ := construct_of_gcd (numerator_ne_zero nonzero) found
    have inverted : inv gcd rational = .ok result := by
      rw [inv, if_neg (Bool.eq_false_iff.mp nonzero), returned]
    exact ⟨result, inverted, (value_inv inverted).2⟩
  div_zero left right isZero := by
    have numeratorZero := isZero_iff.mp isZero
    apply construct_zero
    rw [MachinePolynomial.toMvPolynomial_mul, numeratorZero, mul_zero]
    rw [numeratorZero, mul_zero]
    exact WrappedExponents.below_zero
  inv_zero _ isZero := if_pos isZero
  divRem_zero _ _ isZero := by
    rw [divRem, inv, if_pos isZero]
    rfl

theorem value_zero : (zero : RationalPolynomial vars).value = 0 := by
  rw [zero, value_fromPolynomial, fraction]
  have isZero : (0 : MachinePolynomial vars ℚ).toMvPolynomial = 0 := rfl
  rw [isZero, map_zero, zero_div]

theorem value_one : (one : RationalPolynomial vars).value = 1 := by
  rw [one, value_fromPolynomial, MachinePolynomial.toMvPolynomial_constant, map_one,
    fraction, map_one, div_one]

/-- Polynomials with 32-bit exponents are a ring, whatever wraps. -/
private theorem machine_eq
    {one other : MachinePolynomial vars ℚ}
    (same : one.wrapped = other.wrapped) :
    one = other :=
  MachinePolynomial.wrapped_injective same

theorem sub_eq_add
    (left right : RationalPolynomial vars) :
    sub gcd left right = add gcd left (-right) := by
  have numerators :
      left.numerator * right.denominator - right.numerator * left.denominator =
        left.numerator * right.denominator + -right.numerator * left.denominator :=
    machine_eq (by simp [sub_eq_add_neg])
  rw [sub, numerators]
  rfl

theorem add_swap
    (left right : RationalPolynomial vars) :
    add gcd left right = add gcd right left := by
  have laws : MachinePolynomial.RingLaws vars ℚ := MachinePolynomial.ringLaws
  rw [add, laws.add_comm, laws.mul_comm left.denominator]
  rfl

theorem mul_swap
    (left right : RationalPolynomial vars) :
    mul gcd left right = mul gcd right left := by
  have laws : MachinePolynomial.RingLaws vars ℚ := MachinePolynomial.ringLaws
  rw [mul, laws.mul_comm left.numerator, laws.mul_comm left.denominator]
  rfl

/-- The constructor does not change a value. -/
theorem eq_of_construct
    (returned : construct gcd left.numerator left.denominator = .ok result) :
    result = left :=
  eq_iff_value_eq.mpr (value_of_construct returned).2

theorem eq_of_zero_add
    (returned : add gcd zero left = .ok result) :
    result = left := by
  apply @eq_of_construct _ _ gcd
  rw [← returned, add]
  congr 1
  · exact machine_eq (by simp [zero, fromPolynomial])
  · exact machine_eq (by simp [zero, fromPolynomial])

theorem eq_of_one_mul
    (returned : mul gcd one left = .ok result) :
    result = left := by
  apply @eq_of_construct _ _ gcd
  rw [← returned, mul]
  congr 1
  · exact machine_eq (by simp [one, fromPolynomial])
  · exact machine_eq (by simp [one, fromPolynomial])

theorem eq_zero_of_neg_add
    (returned : add gcd (-left) left = .ok result) :
    result = zero := by
  have cancels :
      (-left).numerator * left.denominator + left.numerator * (-left).denominator = 0 := by
    apply machine_eq
    have negated : (-left).numerator = -left.numerator := rfl
    have kept : (-left).denominator = left.denominator := rfl
    rw [negated, kept]
    simp
  rw [add, cancels] at returned
  have isZero : (0 : MachinePolynomial vars ℚ).toMvPolynomial = 0 := rfl
  rw [eq_iff_value_eq, (value_of_construct returned).2, value_zero, fraction, isZero,
    map_zero, zero_div]

/-- A product with the inverse has the same numerator as denominator. -/
theorem eq_one_of_inv_mul
    {inverse : RationalPolynomial vars}
    (inverted : inv gcd left = .ok inverse)
    (returned : mul gcd inverse left = .ok result) :
    result = one := by
  obtain ⟨nonzero, isInverse⟩ := value_inv inverted
  rw [value, value, ← fraction_inv,
    fraction_eq_iff inverse.denominator_ne_zero (numerator_ne_zero nonzero)] at isInverse
  have sameProduct :
      inverse.numerator * left.numerator = inverse.denominator * left.denominator := by
    apply machine_eq
    rw [wrapped_product, wrapped_product, isInverse, mul_comm]
  rw [mul, sameProduct] at returned
  obtain ⟨stays, isValue⟩ := value_of_construct returned
  rw [eq_iff_value_eq, isValue, value_one, fraction]
  exact div_self (algebraMap_ne_zero stays)

theorem fieldAxioms (gcd : ReducingGcd vars) : FieldAxioms gcd where
  add_comm := add_swap
  add_assoc first second third fourth := by
    rw [eq_iff_value_eq, second.value, first.value, fourth.value, third.value]
    ring
  zero_add := eq_of_zero_add
  neg_add := eq_zero_of_neg_add
  sub_eq := sub_eq_add
  mul_comm := mul_swap
  mul_assoc first second third fourth := by
    rw [eq_iff_value_eq, second.value, first.value, fourth.value, third.value]
    ring
  one_mul := eq_of_one_mul
  inv_mul := eq_one_of_inv_mul
  div_eq divides inverted multiplies := by
    obtain ⟨nonzero, isInverse⟩ := value_inv inverted
    rw [eq_iff_value_eq, divides.value nonzero, multiplies.value, isInverse]
    ring
  mul_add first second third fourth fifth := by
    rw [eq_iff_value_eq, second.value, first.value, fifth.value, third.value,
      fourth.value]
    ring
  zero_ne_one := by
    rw [Ne, eq_iff_value_eq, value_zero, value_one]
    exact zero_ne_one

/-- Rational functions are canonical, and where they survive their operations exact. -/
theorem canonicalForm_exactOperations_fieldAxioms
    {numVars : ℕ}
    {vars : Fin numVars → Symbol}
    (gcd : ReducingGcd vars) :
    CanonicalForm gcd ∧ ExactOperations gcd ∧ FieldAxioms gcd :=
  ⟨canonicalForm gcd, exactOperations gcd, fieldAxioms gcd⟩

/-- One variable. -/
def oneVariable : Fin 1 → Symbol :=
  fun _ => ⟨0⟩

/-- The gcd with 1, of equal polynomials and of neighbours, and of nothing else. -/
def trivialGcd : ReducingGcd oneVariable where
  run left right :=
    if left = constant 1 ∨ right = constant 1 ∨ left = right + constant 1 then
      .ok (constant 1)
    else if left = right then
      .ok left
    else
      .error (.runtimeError "poly_core::rational_multivariate_gcd: failed")
  isGcd := by
    intro left right common returned
    split_ifs at returned with someOne same
    · cases returned
      rw [MachinePolynomial.toMvPolynomial_constant, map_one]
      refine ⟨one_dvd _, one_dvd _, fun divisor dividesLeft dividesRight => ?_⟩
      rcases someOne with rfl | rfl | rfl
      · simpa using dividesLeft
      · simpa using dividesRight
      · rw [MachinePolynomial.toMvPolynomial_add, MachinePolynomial.toMvPolynomial_constant,
          map_one] at dividesLeft
        exact (dvd_add_right dividesRight).mp dividesLeft
    · cases returned
      rw [same]
      exact ⟨dvd_refl _, dvd_refl _, fun _ divides _ => divides⟩

/-- `x^(2^31)`. -/
def highPower : MachinePolynomial oneVariable ℚ :=
  MachinePolynomial.fromTerm (Monomial.single 0 (2 ^ 31)) (by decide +kernel) 1

private theorem toMvPolynomial_highPower :
    highPower.toMvPolynomial =
      MvPolynomial.monomial (Monomial.single 0 (2 ^ 31)).toFinsupp 1 :=
  MultivariatePolynomial.toMvPolynomial_fromTerm _ _

private theorem highPower_ne_zero : highPower.toMvPolynomial ≠ 0 := by
  rw [toMvPolynomial_highPower, Ne, MvPolynomial.monomial_eq_zero]
  exact one_ne_zero

/-- The exponents `2^31` add up to `2^32`, which wraps to 0. -/
private theorem highPower_mul_highPower : highPower * highPower = constant 1 := by
  apply machine_eq
  rw [wrapped_product, toMvPolynomial_highPower, MvPolynomial.monomial_mul, mul_one,
    MachinePolynomial.wrapped_one, ← map_one (wrap exponentModulus), ← MvPolynomial.C_1]
  apply WrappedExponents.wrap_monomial_congr
  intro index
  rw [Subsingleton.elim index 0]
  rfl

/-- `1 / x^(2^31)`. -/
def reciprocal : RationalPolynomial oneVariable where
  numerator := constant 1
  denominator := highPower
  lowest := by
    refine ⟨?_, ?_⟩
    · rw [MachinePolynomial.toMvPolynomial_constant, map_one]
      exact isRelPrime_one_left
    · rw [toMvPolynomial_highPower]
      exact MonomialOrder.monic_monomial_one

/-- A gcd and a result with the value of the quotient are returned. -/
private theorem construct_eq_ok
    {numerator denominator common : MachinePolynomial oneVariable ℚ}
    (found : trivialGcd.run numerator denominator = .ok common)
    (nonzero : denominator.toMvPolynomial ≠ 0)
    {result : RationalPolynomial oneVariable}
    (same :
      numerator.toMvPolynomial * result.denominator.toMvPolynomial =
        result.numerator.toMvPolynomial * denominator.toMvPolynomial) :
    construct trivialGcd numerator denominator = .ok result := by
  obtain ⟨other, returned⟩ := construct_of_gcd nonzero found
  rw [returned]
  congr 1
  rw [eq_iff_value_eq, (value_of_construct returned).2]
  exact (fraction_eq_iff nonzero result.denominator_ne_zero).mpr same

private theorem toMvPolynomial_one :
    (constant 1 : MachinePolynomial oneVariable ℚ).toMvPolynomial = 1 := by
  rw [MachinePolynomial.toMvPolynomial_constant, map_one]

private theorem one_ne_zero_of_toMvPolynomial :
    (constant 1 : MachinePolynomial oneVariable ℚ).toMvPolynomial ≠ 0 := by
  rw [toMvPolynomial_one]
  exact one_ne_zero

private theorem trivialGcd_one_left
    (poly : MachinePolynomial oneVariable ℚ) :
    trivialGcd.run (constant 1) poly = .ok (constant 1) := by
  simp [trivialGcd]

private theorem trivialGcd_one_right
    (poly : MachinePolynomial oneVariable ℚ) :
    trivialGcd.run poly (constant 1) = .ok (constant 1) := by
  simp [trivialGcd]

private theorem trivialGcd_self
    (poly : MachinePolynomial oneVariable ℚ) :
    ∃ common, trivialGcd.run poly poly = .ok common := by
  simp only [trivialGcd]
  split_ifs with isOne
  · exact ⟨_, rfl⟩
  · exact ⟨_, rfl⟩

/-- `x^(2^31) * (1 / x^(2^31))` is 1. -/
private theorem mul_reciprocal :
    mul trivialGcd (fromPolynomial highPower) reciprocal = .ok one := by
  have laws : MachinePolynomial.RingLaws oneVariable ℚ := MachinePolynomial.ringLaws
  rw [mul, reciprocal, fromPolynomial, laws.mul_one, laws.one_mul]
  obtain ⟨common, found⟩ := trivialGcd_self highPower
  exact construct_eq_ok found highPower_ne_zero (mul_comm _ _)

private theorem one_mul_reciprocal :
    mul trivialGcd one reciprocal = .ok reciprocal := by
  have laws : MachinePolynomial.RingLaws oneVariable ℚ := MachinePolynomial.ringLaws
  rw [mul, one, reciprocal, fromPolynomial, laws.mul_one, laws.one_mul]
  exact construct_eq_ok (trivialGcd_one_left _) highPower_ne_zero rfl

/--
With `a = x^(2^31)`, every fraction of `a⁻¹ * (a + 1)` and of `a⁻¹ * a + a⁻¹ * 1` survives,
and the results are equal.
-/
theorem canonicalForm_exactOperations_fieldAxioms_reciprocal :
    ∃ left right,
      Adds trivialGcd (fromPolynomial highPower) one
          (fromPolynomial (highPower + constant 1)) ∧
        Multiplies trivialGcd reciprocal (fromPolynomial (highPower + constant 1)) left ∧
        Multiplies trivialGcd reciprocal (fromPolynomial highPower) one ∧
        Multiplies trivialGcd reciprocal one reciprocal ∧
        Adds trivialGcd one reciprocal right ∧
        left = right := by
  have laws : MachinePolynomial.RingLaws oneVariable ℚ := MachinePolynomial.ringLaws
  have oneBelow : Below exponentModulus (1 : MvPolynomial (Fin 1) ℚ) := by
    rw [← toMvPolynomial_one]
    exact (constant 1 : MachinePolynomial oneVariable ℚ).fits.below
  have powerBelow := highPower.fits.below
  have sumBelow : Below exponentModulus (highPower.toMvPolynomial + 1) := by
    rw [← toMvPolynomial_one, ← MachinePolynomial.toMvPolynomial_add]
    exact (highPower + constant 1).fits.below
  have neighbours :
      trivialGcd.run (highPower + constant 1) highPower = .ok (constant 1) := by
    simp [trivialGcd]
  have adds :
      Adds trivialGcd (fromPolynomial highPower) one
        (fromPolynomial (highPower + constant 1)) := by
    constructor
    · rw [add, one, fromPolynomial, fromPolynomial, fromPolynomial, laws.mul_one,
        laws.mul_one]
      exact construct_eq_ok (trivialGcd_one_right _) one_ne_zero_of_toMvPolynomial rfl
    · have survives := Survives.of_below one_ne_zero sumBelow oneBelow
      simpa [SumSurvives, one, fromPolynomial] using survives
  obtain ⟨result, returned⟩ := construct_of_gcd highPower_ne_zero neighbours
  have multipliesSum :
      Multiplies trivialGcd reciprocal (fromPolynomial (highPower + constant 1)) result := by
    constructor
    · rw [mul, reciprocal, fromPolynomial, laws.one_mul, laws.mul_one]
      exact returned
    · have survives := Survives.of_below highPower_ne_zero sumBelow powerBelow
      simpa [ProductSurvives, reciprocal, fromPolynomial] using survives
  have multipliesPower :
      Multiplies trivialGcd reciprocal (fromPolynomial highPower) one := by
    constructor
    · rw [(fieldAxioms trivialGcd).mul_comm]
      exact mul_reciprocal
    · have survives := Survives.of_below highPower_ne_zero powerBelow powerBelow
      simpa [ProductSurvives, reciprocal, fromPolynomial] using survives
  have multipliesOne : Multiplies trivialGcd reciprocal one reciprocal := by
    constructor
    · rw [(fieldAxioms trivialGcd).mul_comm]
      exact one_mul_reciprocal
    · have survives := Survives.of_below highPower_ne_zero oneBelow powerBelow
      simpa [ProductSurvives, reciprocal, one, fromPolynomial] using survives
  have addsProducts : Adds trivialGcd one reciprocal result := by
    constructor
    · rw [add, one, reciprocal, fromPolynomial, laws.one_mul, laws.one_mul]
      exact returned
    · have survives := Survives.of_below highPower_ne_zero sumBelow powerBelow
      simpa [SumSurvives, reciprocal, one, fromPolynomial] using survives
  exact ⟨result, result, adds, multipliesSum, multipliesPower, multipliesOne, addsProducts,
    (canonicalForm_exactOperations_fieldAxioms trivialGcd).2.2.mul_add adds multipliesSum
      multipliesPower multipliesOne addsProducts⟩

/--
With `a = x^(2^31)`, the product `(a * a) * a⁻¹` is `a⁻¹`, since `a * a` wraps to 1, and
`a * (a * a⁻¹)` is `a`.
-/
theorem mul_highPower_not_associative :
    mul trivialGcd (fromPolynomial highPower) (fromPolynomial highPower) = .ok one ∧
      mul trivialGcd one reciprocal = .ok reciprocal ∧
      inv trivialGcd (fromPolynomial highPower) = .ok reciprocal ∧
      mul trivialGcd (fromPolynomial highPower) reciprocal = .ok one ∧
      mul trivialGcd (fromPolynomial highPower) one = .ok (fromPolynomial highPower) ∧
      reciprocal ≠ fromPolynomial highPower := by
  have laws : MachinePolynomial.RingLaws oneVariable ℚ := MachinePolynomial.ringLaws
  refine ⟨?_, one_mul_reciprocal, ?_, mul_reciprocal, ?_, ?_⟩
  · rw [mul, fromPolynomial, highPower_mul_highPower, laws.mul_one]
    exact construct_eq_ok (trivialGcd_one_left _) one_ne_zero_of_toMvPolynomial rfl
  · have notZero : (fromPolynomial highPower).isZero = false :=
      Bool.eq_false_iff.mpr fun isZero => highPower_ne_zero (isZero_iff.mp isZero)
    rw [inv, if_neg (Bool.eq_false_iff.mp notZero)]
    exact construct_eq_ok (trivialGcd_one_left _) highPower_ne_zero rfl
  · rw [mul, one, fromPolynomial, fromPolynomial, laws.mul_one, laws.mul_one]
    exact construct_eq_ok (trivialGcd_one_right _) one_ne_zero_of_toMvPolynomial rfl
  · intro same
    have numerators : constant 1 = highPower := congrArg numerator same
    have differ : (constant 1 : MachinePolynomial oneVariable ℚ) ≠ highPower := by
      decide +kernel
    exact differ numerators

end RationalPolynomial

end PolyCore
