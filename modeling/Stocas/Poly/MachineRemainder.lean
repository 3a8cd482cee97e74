import Stocas.Poly.MachineDivision
import Stocas.Poly.RationalGcd

namespace PolyCore

open SymbolTable (Symbol)
open WrappedExponents (wrap)

/-!
# The result of a division with 32-bit exponents

The quotient and the remainder of `multivariate_div_rem` are determined by three
facts: the identity holds under the library's own operations, no monomial of the
quotient times the leading monomial of the divisor leaves the range of exponents,
and no monomial of the remainder is divisible by that leading monomial.
-/

/-- A common factor keeps the order of monomials. -/
theorem Monomial.mul_lt_mul_of_lt
    {numVars : ℕ}
    {left right : Monomial numVars}
    (less : left < right)
    (factor : Monomial numVars) :
    left * factor < right * factor := by
  obtain ⟨index, earlierSame, lessHere⟩ := less
  refine ⟨index, ?_, ?_⟩
  · intro earlier before
    rw [exponent_mul, exponent_mul, earlierSame earlier before]
  · rw [exponent_mul, exponent_mul]
    exact Nat.add_lt_add_right lessHere _

namespace MachinePolynomial

open MultivariatePolynomial
  (coeff_leading exists_leading exists_of_coeff_ne_zero exists_of_mem_mergeTerms
    leading_ne_zero termsValue termsValue_append termsValue_cons terms_fromTerm
    toMvPolynomial_eq_zero_iff toMvPolynomial_ofRaw)

variable {numVars : ℕ} {vars : Fin numVars → Symbol} {K : Type}

section Terms

variable [CommRing K]

/-- Every monomial of the polynomial has the property. -/
def EveryMonomial
    (property : Monomial numVars → Prop)
    (poly : MachinePolynomial vars K) : Prop :=
  ∀ term ∈ poly.terms, property term.1

/-- Times the leading monomial of the divisor, the monomial is in range. -/
def LeadingFits
    (divisor : MachinePolynomial vars K)
    (monomial : Monomial numVars) : Prop :=
  ∀ leading rest,
    divisor.terms = leading :: rest →
    (monomial * leading.1).Fits

/-- The leading monomial of the divisor does not divide the monomial. -/
def Irreducible
    (divisor : MachinePolynomial vars K)
    (monomial : Monomial numVars) : Prop :=
  ∀ leading rest,
    divisor.terms = leading :: rest →
    ¬leading.1.Divides monomial

variable {property : Monomial numVars → Prop} {left right : MachinePolynomial vars K}

theorem everyMonomial_zero :
    EveryMonomial property (0 : MachinePolynomial vars K) := by
  intro term member
  cases member

/-- A polynomial that is not zero denotes one that is not zero. -/
theorem toMvPolynomial_ne_zero
    (isNonzero : left.isZero = false) :
    left.toMvPolynomial ≠ 0 := by
  intro isZero
  rw [MultivariatePolynomial.isZero_iff.mpr isZero] at isNonzero
  cases isNonzero

/-- A monomial with a coefficient is one of the terms. -/
theorem EveryMonomial.of_coeff
    (every : EveryMonomial property left)
    {monomial : Monomial numVars}
    (occurs : left.toMvPolynomial.coeff monomial.toFinsupp ≠ 0) :
    property monomial := by
  obtain ⟨term, member, same⟩ := exists_of_coeff_ne_zero occurs
  rw [← same]
  exact every term member

variable [DecidableEq K]

/-- Merging the terms of two polynomials brings in no monomial. -/
theorem EveryMonomial.merged
    {combine : K → K → K}
    {merged : MachinePolynomial vars K}
    (leftEvery : EveryMonomial property left)
    (rightEvery : EveryMonomial property right)
    (isMerged :
      merged.terms = MultivariatePolynomial.mergeTerms combine left.terms right.terms) :
    EveryMonomial property merged := by
  intro term member
  rw [isMerged] at member
  rcases exists_of_mem_mergeTerms member with
    ⟨first, firstMember, same⟩ | ⟨second, secondMember, same⟩
  · rw [← same]
    exact leftEvery first firstMember
  · rw [← same]
    exact rightEvery second secondMember

theorem EveryMonomial.add
    (leftEvery : EveryMonomial property left)
    (rightEvery : EveryMonomial property right) :
    EveryMonomial property (left + right) :=
  leftEvery.merged rightEvery rfl

theorem EveryMonomial.sub
    (leftEvery : EveryMonomial property left)
    (rightEvery : EveryMonomial property right) :
    EveryMonomial property (left - right) :=
  leftEvery.merged rightEvery rfl

/-- A single term has its own monomial. -/
theorem everyMonomial_fromTerm
    {monomial : Monomial numVars}
    (fits : monomial.Fits)
    (holds : property monomial)
    (coefficient : K) :
    EveryMonomial property
      (fromTerm monomial fits coefficient : MachinePolynomial vars K) := by
  intro term member
  have member :
      term ∈ (MultivariatePolynomial.fromTerm monomial coefficient :
        MultivariatePolynomial vars K).terms := member
  rw [MultivariatePolynomial.fromTerm] at member
  split at member
  · cases member
  · rw [List.mem_singleton.mp member]
    exact holds

/-- The leading terms of a product that stays in range do not cancel. -/
theorem coeff_leading_mul
    {factor divisor : MachinePolynomial vars K}
    {factorLeading divisorLeading : Term numVars K}
    {factorRest divisorRest : List (Term numVars K)}
    (factorShape : factor.terms = factorLeading :: factorRest)
    (divisorShape : divisor.terms = divisorLeading :: divisorRest)
    (fits : EveryMonomial (LeadingFits divisor) factor) :
    (factor * divisor).toMvPolynomial.coeff
        (factorLeading.1 * divisorLeading.1).toFinsupp =
      factorLeading.2 * divisorLeading.2 := by
  have factorDescending := List.pairwise_cons.mp (factorShape ▸ factor.descending)
  have divisorDescending := List.pairwise_cons.mp (divisorShape ▸ divisor.descending)
  have productFits :
      ∀ one ∈ factor.terms, (one.1 * divisorLeading.1).Fits :=
    fun one member => fits one member _ _ divisorShape
  have leadingFits := productFits factorLeading (by simp [factorShape])
  have leadingProduct :
      factorLeading.1.wrappedMul divisorLeading.1 =
        factorLeading.1 * divisorLeading.1 :=
    Monomial.wrappedMul_eq_mul leadingFits
  -- Every other product of two terms is below the product of the leading ones.
  have below :
      ∀ term ∈
          divisorRest.map (fun other =>
              (factorLeading.1.wrappedMul other.1, factorLeading.2 * other.2)) ++
            factorRest.flatMap (fun one =>
              divisor.terms.map fun other =>
                (one.1.wrappedMul other.1, one.2 * other.2)),
        term.1 < factorLeading.1 * divisorLeading.1 := by
    intro term member
    rcases List.mem_append.mp member with inFirst | inLater
    · obtain ⟨other, otherMember, rfl⟩ := List.mem_map.mp inFirst
      exact Monomial.wrappedMul_lt rfl leadingFits
        (divisorDescending.1 other otherMember)
    · obtain ⟨one, oneMember, inRow⟩ := List.mem_flatMap.mp inLater
      obtain ⟨other, otherMember, rfl⟩ := List.mem_map.mp inRow
      have oneFits := productFits one (by simp [factorShape, oneMember])
      have lower : one.1 * divisorLeading.1 < factorLeading.1 * divisorLeading.1 :=
        Monomial.mul_lt_mul_of_lt (factorDescending.1 one oneMember) _
      rw [divisorShape] at otherMember
      rcases List.mem_cons.mp otherMember with isLeading | inRest
      · rw [isLeading, Monomial.wrappedMul_eq_mul oneFits]
        exact lower
      · exact (Monomial.wrappedMul_lt rfl oneFits
          (divisorDescending.1 other inRest)).trans lower
  have product :
      (factor * divisor).toMvPolynomial =
        termsValue
          (factor.terms.flatMap fun one =>
            divisor.terms.map fun other =>
              (one.1.wrappedMul other.1, one.2 * other.2)) := by
    have notZero :
        (factor.isZero || divisor.isZero) = false := by
      simp [MultivariatePolynomial.isZero, factorShape, divisorShape]
    have unfolded :
        (factor * divisor).toMvPolynomial =
          (factor.toMultivariatePolynomial.wrappedMul
            divisor.toMultivariatePolynomial).toMvPolynomial := rfl
    rw [unfolded, MultivariatePolynomial.wrappedMul, if_neg (by simp [notZero]),
      toMvPolynomial_ofRaw]
  have noOther :
      (termsValue
        (divisorRest.map (fun other =>
            (factorLeading.1.wrappedMul other.1, factorLeading.2 * other.2)) ++
          factorRest.flatMap (fun one =>
            divisor.terms.map fun other =>
              (one.1.wrappedMul other.1, one.2 * other.2)))).coeff
        (factorLeading.1 * divisorLeading.1).toFinsupp = 0 := by
    by_contra occurs
    obtain ⟨term, member, same⟩ := exists_of_coeff_ne_zero occurs
    exact absurd same (ne_of_lt (below term member))
  have firstRow :
      divisor.terms.map (fun other =>
          (factorLeading.1.wrappedMul other.1, factorLeading.2 * other.2)) =
        (factorLeading.1 * divisorLeading.1, factorLeading.2 * divisorLeading.2) ::
          divisorRest.map fun other =>
            (factorLeading.1.wrappedMul other.1, factorLeading.2 * other.2) := by
    rw [divisorShape, List.map_cons, leadingProduct]
  rw [product, factorShape, List.flatMap_cons, firstRow, List.cons_append,
    termsValue_cons, MvPolynomial.coeff_add, noOther, MvPolynomial.coeff_monomial,
    if_pos rfl, add_zero]

end Terms

section Division

variable [Field K] [DecidableEq K] [FieldErrors K]

/-- What the loop keeps: the identity, and the monomials of both results. -/
theorem multivariateDivRemLoop_spec
    {divisor : MachinePolynomial vars K}
    {divisorLeading : Term numVars K}
    {others : List (Term numVars K)}
    (divisorShape : divisor.terms = divisorLeading :: others)
    {quotient remainder : MachinePolynomial vars K}
    (quotientFits : EveryMonomial (LeadingFits divisor) quotient)
    (remainderIrreducible : EveryMonomial (Irreducible divisor) remainder)
    (working : MachinePolynomial vars K) :
    ∃ lastQuotient lastRemainder,
      multivariateDivRemLoop divisor divisorLeading others divisorShape
          quotient remainder working =
        .ok (lastQuotient, lastRemainder) ∧
      lastQuotient.wrapped * divisor.wrapped + lastRemainder.wrapped =
        quotient.wrapped * divisor.wrapped + remainder.wrapped + working.wrapped ∧
      EveryMonomial (LeadingFits divisor) lastQuotient ∧
      EveryMonomial (Irreducible divisor) lastRemainder := by
  fun_induction multivariateDivRemLoop divisor divisorLeading others divisorShape
      quotient remainder working with
  | case1 quotient remainder working shape =>
      have noneLeft : working.wrapped = 0 := by
        rw [wrapped, toMvPolynomial_eq_zero_iff.mpr shape, map_zero]
      exact ⟨quotient, remainder, rfl, by rw [noneLeft, add_zero], quotientFits,
        remainderIrreducible⟩
  | case2 quotient remainder working leading rest shape fits reducible error inverted =>
      rw [fieldInv, if_neg (leading_ne_zero divisorShape)] at inverted
      cases inverted
  | case3 quotient remainder working leading rest shape fits reducible inverse inverted
      factorTerm inductionHypothesis =>
      have factorFits : LeadingFits divisor (leading.1 / divisorLeading.1) := by
        intro first later sameShape
        have same := divisorShape.symm.trans sameShape
        cases same
        rwa [Monomial.div_mul_cancel reducible]
      obtain ⟨lastQuotient, lastRemainder, returns, identity, lastFits, irreducible⟩ :=
        inductionHypothesis
          (quotientFits.add (everyMonomial_fromTerm _ factorFits _))
          remainderIrreducible
      refine ⟨lastQuotient, lastRemainder, returns, ?_, lastFits, irreducible⟩
      rw [identity, wrapped_sub, wrapped_mul, wrapped_add]
      ring
  | case4 quotient remainder working leading rest shape fits keeps inductionHypothesis =>
      have leadingIrreducible : Irreducible divisor leading.1 := by
        intro first later sameShape
        have same := divisorShape.symm.trans sameShape
        cases same
        exact keeps
      obtain ⟨lastQuotient, lastRemainder, returns, identity, lastFits, irreducible⟩ :=
        inductionHypothesis quotientFits
          (remainderIrreducible.add (everyMonomial_fromTerm _ leadingIrreducible _))
      refine ⟨lastQuotient, lastRemainder, returns, ?_, lastFits, irreducible⟩
      rw [identity, wrapped_sub, wrapped_add]
      ring

/-- Division returns, and its results satisfy the three facts. -/
theorem multivariateDivRem_spec
    (dividend : MachinePolynomial vars K)
    {divisor : MachinePolynomial vars K}
    (divisorNonzero : divisor.toMvPolynomial ≠ 0) :
    ∃ quotient remainder,
      multivariateDivRem dividend divisor = .ok (quotient, remainder) ∧
      dividend = quotient * divisor + remainder ∧
      EveryMonomial (LeadingFits divisor) quotient ∧
      EveryMonomial (Irreducible divisor) remainder := by
  obtain ⟨divisorLeading, others, divisorShape⟩ := exists_leading divisorNonzero
  obtain ⟨quotient, remainder, returns, identity, fits, irreducible⟩ :=
    multivariateDivRemLoop_spec divisorShape everyMonomial_zero everyMonomial_zero
      dividend
  refine ⟨quotient, remainder, ?_, ?_, fits, irreducible⟩
  · rw [multivariateDivRem_eq_loop divisorShape, returns]
  · refine wrapped_injective ?_
    rw [wrapped_add, wrapped_mul, identity, wrapped_zero, zero_mul, zero_add, zero_add]

/-- Only one quotient and one remainder satisfy the three facts. -/
theorem multivariateDivRem_eq
    {dividend divisor quotient remainder : MachinePolynomial vars K}
    (divisorNonzero : divisor.toMvPolynomial ≠ 0)
    (identity : dividend = quotient * divisor + remainder)
    (fits : EveryMonomial (LeadingFits divisor) quotient)
    (irreducible : EveryMonomial (Irreducible divisor) remainder) :
    multivariateDivRem dividend divisor = .ok (quotient, remainder) := by
  obtain ⟨lastQuotient, lastRemainder, returns, lastIdentity, lastFits,
    lastIrreducible⟩ := multivariateDivRem_spec dividend divisorNonzero
  have difference :
      (lastQuotient - quotient) * divisor = remainder - lastRemainder := by
    have same := congrArg wrapped (lastIdentity.symm.trans identity)
    rw [wrapped_add, wrapped_add, wrapped_mul, wrapped_mul] at same
    refine wrapped_injective ?_
    rw [wrapped_mul, wrapped_sub, wrapped_sub]
    linear_combination same
  have sameQuotient : (lastQuotient - quotient).terms = [] := by
    obtain ⟨divisorLeading, others, divisorShape⟩ := exists_leading divisorNonzero
    cases shape : (lastQuotient - quotient).terms with
    | nil =>
        rfl
    | cons leading rest =>
        have coefficient :=
          coeff_leading_mul shape divisorShape (lastFits.sub fits)
        have occurs :
            (remainder - lastRemainder).toMvPolynomial.coeff
                (leading.1 * divisorLeading.1).toFinsupp ≠ 0 := by
          rw [← difference, coefficient]
          exact mul_ne_zero (leading_ne_zero shape) (leading_ne_zero divisorShape)
        have notDivisible := (irreducible.sub lastIrreducible).of_coeff occurs
        exact absurd (fun index => Nat.le_add_left _ _)
          (notDivisible _ _ divisorShape)
  have quotientZero : (lastQuotient - quotient).wrapped = 0 := by
    rw [wrapped, toMvPolynomial_eq_zero_iff.mpr sameQuotient, map_zero]
  have quotient_eq : lastQuotient = quotient := by
    rw [wrapped_sub, sub_eq_zero] at quotientZero
    exact wrapped_injective quotientZero
  have remainder_eq : lastRemainder = remainder := by
    have same := congrArg wrapped difference
    rw [wrapped_mul, quotientZero, zero_mul, wrapped_sub] at same
    exact wrapped_injective (sub_eq_zero.mp same.symm).symm
  rw [returns, quotient_eq, remainder_eq]

/-- `multivariate_div_rem` always returns, with the identity under `operator==`. -/
theorem multivariateDivRem_identity
    {numVars : ℕ}
    {vars : Fin numVars → Symbol}
    {K : Type}
    [Field K]
    [DecidableEq K]
    [FieldErrors K]
    (dividend : MachinePolynomial vars K)
    {divisor : MachinePolynomial vars K}
    (divisorNonzero : divisor.isZero = false) :
    ∃ quotient remainder,
      multivariateDivRem dividend divisor = .ok (quotient, remainder) ∧
      dividend = quotient * divisor + remainder ∧
      ∀ leading rest,
        divisor.terms = leading :: rest →
        ∀ term ∈ remainder.terms, ¬leading.1.Divides term.1 := by
  obtain ⟨quotient, remainder, returns, identity, -, irreducible⟩ :=
    multivariateDivRem_spec dividend (toMvPolynomial_ne_zero divisorNonzero)
  exact ⟨quotient, remainder, returns, identity, fun leading rest shape term member =>
    irreducible term member leading rest shape⟩

/-- A multiple of the divisor is divided by its cofactor, and by no other quotient. -/
theorem exact_of_multiple
    {dividend divisor quotient : MachinePolynomial vars K}
    (divisorNonzero : divisor.toMvPolynomial ≠ 0)
    (isMultiple : divisor.toMvPolynomial ∣ dividend.toMvPolynomial)
    (fits : EveryMonomial (LeadingFits divisor) quotient)
    (product : dividend = quotient * divisor) :
    dividend.toMvPolynomial = quotient.toMvPolynomial * divisor.toMvPolynomial := by
  have laws : RingLaws vars K := ringLaws
  have returns := multivariateDivRem_eq divisorNonzero (product.trans (laws.add_zero _).symm)
    fits everyMonomial_zero
  obtain ⟨exactQuotient, exactReturns, exactProduct⟩ :=
    multivariateDivRem_exact divisorNonzero isMultiple
  rw [returns, Except.ok.injEq, Prod.mk.injEq] at exactReturns
  rw [exactReturns.1]
  exact exactProduct.symm

omit [FieldErrors K] in
/-- In one variable no multiple of the divisor by such a quotient wraps. -/
theorem toMvPolynomial_mul_of_leadingFits
    {single : Fin 1 → Symbol}
    {quotient divisor : MachinePolynomial single K}
    (divisorNonzero : divisor.toMvPolynomial ≠ 0)
    (fits : EveryMonomial (LeadingFits divisor) quotient) :
    (quotient * divisor).toMvPolynomial =
      quotient.toMvPolynomial * divisor.toMvPolynomial := by
  obtain ⟨leading, rest, shape⟩ := exists_leading divisorNonzero
  apply toMvPolynomial_mul
  intro exponents occurs index
  obtain ⟨first, firstMember, second, secondMember, rfl⟩ :=
    Finset.mem_add.mp (MvPolynomial.support_mul _ _ (MvPolynomial.mem_support_iff.mpr occurs))
  obtain ⟨left, rfl⟩ := Monomial.exists_toFinsupp_eq first
  obtain ⟨right, rfl⟩ := Monomial.exists_toFinsupp_eq second
  have inRange : (left * leading.1).Fits :=
    fits.of_coeff (MvPolynomial.mem_support_iff.mp firstMember) leading rest shape
  have lower : right.exponent index ≤ leading.1.exponent index := by
    rcases (MultivariatePolynomial.le_of_coeff_ne_zero shape
      (MvPolynomial.mem_support_iff.mp secondMember)).lt_or_eq with ⟨other, -, less⟩ | same
    · rw [Subsingleton.elim index other]
      exact less.le
    · rw [same]
  have bound := inRange index
  rw [Monomial.exponent_mul] at bound
  rw [Finsupp.add_apply, Monomial.toFinsupp_apply, Monomial.toFinsupp_apply]
  omega

/--
The remainder is zero exactly for the multiples of the divisor, and the quotient is
then the cofactor.
-/
def IsExactDivisionTest
    (dividend divisor : MachinePolynomial vars K) : Prop :=
  ∃ quotient remainder,
    multivariateDivRem dividend divisor = .ok (quotient, remainder) ∧
    (remainder.isZero = true ↔
      ∃ cofactor, dividend.toMvPolynomial = cofactor * divisor.toMvPolynomial) ∧
    ∀ cofactor,
      dividend.toMvPolynomial = cofactor * divisor.toMvPolynomial →
      quotient.toMvPolynomial = cofactor

/-- A dividend that wrapping alone does not make a multiple is tested. -/
theorem isExactDivisionTest_of_noWrap
    {dividend divisor : MachinePolynomial vars K}
    (nonzero : divisor.toMvPolynomial ≠ 0)
    (noWrap :
      ∀ quotient : MachinePolynomial vars K,
        EveryMonomial (LeadingFits divisor) quotient →
        dividend = quotient * divisor →
        dividend.toMvPolynomial =
          quotient.toMvPolynomial * divisor.toMvPolynomial) :
    IsExactDivisionTest dividend divisor := by
  have laws : RingLaws vars K := ringLaws
  obtain ⟨quotient, remainder, returns, identity, fits, -⟩ :=
    multivariateDivRem_spec dividend nonzero
  have isQuotient :
      ∀ cofactor,
        dividend.toMvPolynomial = cofactor * divisor.toMvPolynomial →
        quotient.toMvPolynomial = cofactor ∧ remainder = 0 := by
    intro cofactor isMultiple
    obtain ⟨exactQuotient, exactReturns, product⟩ :=
      multivariateDivRem_exact nonzero ⟨cofactor, by rw [isMultiple, mul_comm]⟩
    rw [returns, Except.ok.injEq, Prod.mk.injEq] at exactReturns
    rw [exactReturns.1, exactReturns.2]
    exact ⟨mul_right_cancel₀ nonzero (product.trans isMultiple), rfl⟩
  refine ⟨quotient, remainder, returns, ⟨?_, ?_⟩, fun cofactor isMultiple =>
    (isQuotient cofactor isMultiple).1⟩
  · intro isZero
    have remainder_eq : remainder = 0 :=
      ext_polynomial
        (MultivariatePolynomial.toMvPolynomial_injective
          (MultivariatePolynomial.isZero_iff.mp isZero))
    rw [remainder_eq, laws.add_zero] at identity
    exact ⟨_, noWrap quotient fits identity⟩
  · rintro ⟨cofactor, isMultiple⟩
    rw [(isQuotient cofactor isMultiple).2]
    rfl

/-- In one variable every division is tested. -/
theorem isExactDivisionTest_oneVariable
    {single : Fin 1 → Symbol}
    (dividend : MachinePolynomial single K)
    {divisor : MachinePolynomial single K}
    (divisorNonzero : divisor.isZero = false) :
    IsExactDivisionTest dividend divisor := by
  have nonzero := toMvPolynomial_ne_zero divisorNonzero
  refine isExactDivisionTest_of_noWrap nonzero fun quotient fits product => ?_
  rw [product]
  exact toMvPolynomial_mul_of_leadingFits nonzero fits

/--
Division decides divisibility exactly when the dividend is no multiple of the
divisor by wrapping alone.
-/
theorem isExactDivisionTest_iff
    {numVars : ℕ}
    {vars : Fin numVars → Symbol}
    {K : Type}
    [Field K]
    [DecidableEq K]
    [FieldErrors K]
    (dividend : MachinePolynomial vars K)
    {divisor : MachinePolynomial vars K}
    (divisorNonzero : divisor.isZero = false) :
    IsExactDivisionTest dividend divisor ↔
      ∀ quotient : MachinePolynomial vars K,
        EveryMonomial (LeadingFits divisor) quotient →
        dividend = quotient * divisor →
        dividend.toMvPolynomial =
          quotient.toMvPolynomial * divisor.toMvPolynomial := by
  have nonzero := toMvPolynomial_ne_zero divisorNonzero
  have laws : RingLaws vars K := ringLaws
  constructor
  · rintro ⟨quotient, remainder, returns, isTest, exact⟩ other fits product
    have identity : dividend = other * divisor + 0 := by
      rw [laws.add_zero]
      exact product
    have otherReturns := multivariateDivRem_eq nonzero identity fits everyMonomial_zero
    rw [returns, Except.ok.injEq, Prod.mk.injEq] at otherReturns
    obtain ⟨cofactor, isMultiple⟩ := isTest.mp (by rw [otherReturns.2]; rfl)
    rw [← otherReturns.1, exact cofactor isMultiple]
    exact isMultiple
  · exact isExactDivisionTest_of_noWrap nonzero

end Division

/-- Two variables. -/
def twoVariables : Fin 2 → Symbol :=
  fun index => ⟨index⟩

/-- The monomial `x^i * y^j`. -/
def power (first second : ℕ) : Monomial 2 :=
  ⟨fun index => if index = 0 then first else second⟩

/-- `x^2 - 1`. -/
def squareMinusOne : MachinePolynomial twoVariables ℚ :=
  fromTerm (power 2 0) (by decide +kernel) 1 - constant 1

/-- `x + y^(2^31)`. -/
def highBinomial : MachinePolynomial twoVariables ℚ :=
  fromTerm (power 1 0) (by decide +kernel) 1 +
    fromTerm (power 0 (2 ^ 31)) (by decide +kernel) 1

/-- `x - y^(2^31)`. -/
def highDifference : MachinePolynomial twoVariables ℚ :=
  fromTerm (power 1 0) (by decide +kernel) 1 -
    fromTerm (power 0 (2 ^ 31)) (by decide +kernel) 1

/-- The monomial `y^(2^31)` times itself wraps to 1. -/
private theorem squareMinusOne_eq : squareMinusOne = highDifference * highBinomial := by
  have wrappedTerm :
      ∀ (monomial : Monomial 2) (fits : monomial.Fits),
        (fromTerm monomial fits 1 : MachinePolynomial twoVariables ℚ).wrapped =
          wrap exponentModulus (MvPolynomial.monomial monomial.toFinsupp 1) := by
    intro monomial fits
    exact congrArg _ (MultivariatePolynomial.toMvPolynomial_fromTerm monomial 1)
  have firstSquare :
      wrap exponentModulus (MvPolynomial.monomial (power 1 0).toFinsupp (1 : ℚ)) *
          wrap exponentModulus (MvPolynomial.monomial (power 1 0).toFinsupp 1) =
        wrap exponentModulus (MvPolynomial.monomial (power 2 0).toFinsupp 1) := by
    rw [← map_mul, MvPolynomial.monomial_mul, mul_one]
    refine WrappedExponents.wrap_monomial_congr (fun index => ?_) _
    fin_cases index <;> rfl
  have secondSquare :
      wrap exponentModulus (MvPolynomial.monomial (power 0 (2 ^ 31)).toFinsupp (1 : ℚ)) *
          wrap exponentModulus (MvPolynomial.monomial (power 0 (2 ^ 31)).toFinsupp 1) =
        1 := by
    rw [← map_mul, MvPolynomial.monomial_mul, mul_one, ← map_one (wrap exponentModulus),
      ← MvPolynomial.C_1]
    refine WrappedExponents.wrap_monomial_congr (fun index => ?_) _
    fin_cases index <;> rfl
  refine wrapped_injective ?_
  rw [wrapped_mul, squareMinusOne, highDifference, highBinomial, wrapped_sub, wrapped_sub,
    wrapped_add, wrapped_one, wrappedTerm, wrappedTerm, wrappedTerm, ← firstSquare]
  linear_combination secondSquare

private theorem highBinomial_terms :
    highBinomial.terms = [(power 1 0, 1), (power 0 (2 ^ 31), 1)] := by
  decide +kernel

private theorem leadingFits_highBinomial
    {monomial : Monomial 2}
    (fits : (monomial * power 1 0).Fits) :
    LeadingFits highBinomial monomial := by
  intro leading rest shape
  have same := highBinomial_terms.symm.trans shape
  cases same
  exact fits

private theorem highBinomial_nonzero : highBinomial.toMvPolynomial ≠ 0 :=
  toMvPolynomial_ne_zero (by decide +kernel)

private theorem multivariateDivRem_highBinomial :
    multivariateDivRem squareMinusOne highBinomial = .ok (highDifference, 0) := by
  have laws : RingLaws twoVariables ℚ := ringLaws
  refine multivariateDivRem_eq highBinomial_nonzero ?_ ?_ everyMonomial_zero
  · rw [laws.add_zero]
    exact squareMinusOne_eq
  · exact (everyMonomial_fromTerm _ (leadingFits_highBinomial (by decide +kernel)) _).sub
      (everyMonomial_fromTerm _ (leadingFits_highBinomial (by decide +kernel)) _)

/-- At the point `(0, 0)` the divisor is 0 and the dividend is `-1`. -/
private theorem squareMinusOne_not_multiple :
    ¬∃ cofactor,
      squareMinusOne.toMvPolynomial = cofactor * highBinomial.toMvPolynomial := by
  rintro ⟨cofactor, isMultiple⟩
  have constantTerms := congrArg MvPolynomial.constantCoeff isMultiple
  have termZero :
      ∀ (monomial : Monomial 2) (fits : monomial.Fits),
        monomial ≠ 1 →
        MvPolynomial.constantCoeff
          (fromTerm monomial fits 1 : MachinePolynomial twoVariables ℚ).toMvPolynomial =
            0 := by
    intro monomial fits notOne
    rw [show (fromTerm monomial fits 1 :
          MachinePolynomial twoVariables ℚ).toMvPolynomial =
        MvPolynomial.monomial monomial.toFinsupp 1 from
      MultivariatePolynomial.toMvPolynomial_fromTerm monomial 1,
      MvPolynomial.constantCoeff_monomial, if_neg]
    rw [← Monomial.toFinsupp_one]
    exact fun same => notOne (Monomial.toFinsupp_injective same)
  rw [squareMinusOne, highBinomial, toMvPolynomial_sub, toMvPolynomial_add, map_sub,
    map_mul, map_add, termZero _ _ (by decide +kernel), termZero _ _ (by decide +kernel),
    termZero _ _ (by decide +kernel), toMvPolynomial_constant,
    MvPolynomial.constantCoeff_C] at constantTerms
  norm_num at constantTerms

/--
`x^2 - 1` by `x + y^(2^31)` leaves no remainder, since the two powers of `y` multiply
to 1, and is no multiple of it.
-/
theorem spurious_exact_division :
    multivariateDivRem squareMinusOne highBinomial = .ok (highDifference, 0) ∧
      (¬∃ cofactor,
        squareMinusOne.toMvPolynomial = cofactor * highBinomial.toMvPolynomial) ∧
      ¬IsExactDivisionTest squareMinusOne highBinomial := by
  refine ⟨multivariateDivRem_highBinomial, squareMinusOne_not_multiple, ?_⟩
  rintro ⟨quotient, remainder, returns, isTest, -⟩
  rw [multivariateDivRem_highBinomial, Except.ok.injEq, Prod.mk.injEq] at returns
  exact squareMinusOne_not_multiple (isTest.mp (by rw [← returns.2]; rfl))

/-- The same division: the identity holds, by wrapping. -/
theorem multivariateDivRem_identity_square :
    highBinomial.isZero = false ∧
      ∃ quotient remainder,
        multivariateDivRem squareMinusOne highBinomial = .ok (quotient, remainder) ∧
        squareMinusOne = quotient * highBinomial + remainder ∧
        ∀ leading rest,
          highBinomial.terms = leading :: rest →
          ∀ term ∈ remainder.terms, ¬leading.1.Divides term.1 :=
  ⟨by decide +kernel,
    multivariateDivRem_identity squareMinusOne (by decide +kernel)⟩

/-- `x^2 - y^2`. -/
def squareDifference : MachinePolynomial twoVariables ℚ :=
  fromTerm (power 2 0) (by decide +kernel) 1 - fromTerm (power 0 2) (by decide +kernel) 1

/-- `x + y`. -/
def binomial : MachinePolynomial twoVariables ℚ :=
  fromTerm (power 1 0) (by decide +kernel) 1 + fromTerm (power 0 1) (by decide +kernel) 1

private theorem binomial_dvd_squareDifference :
    binomial.toMvPolynomial ∣ squareDifference.toMvPolynomial := by
  have term :
      ∀ (first second : ℕ) (fits : (power first second).Fits),
        (fromTerm (power first second) fits 1 :
            MachinePolynomial twoVariables ℚ).toMvPolynomial =
          MvPolynomial.X 0 ^ first * MvPolynomial.X 1 ^ second := by
    intro first second fits
    have exponents : (power first second).toFinsupp =
        Finsupp.single 0 first + Finsupp.single 1 second := by
      ext index
      fin_cases index <;> simp [power]
    rw [MvPolynomial.X_pow_eq_monomial, MvPolynomial.X_pow_eq_monomial,
      MvPolynomial.monomial_mul, mul_one, ← exponents]
    exact MultivariatePolynomial.toMvPolynomial_fromTerm _ _
  rw [binomial, squareDifference, toMvPolynomial_add, toMvPolynomial_sub, term, term, term,
    term]
  exact ⟨MvPolynomial.X 0 - MvPolynomial.X 1, by ring⟩

/-- `x^2 - y^2` is a multiple of `x + y`, and the division finds it. -/
theorem isExactDivisionTest_iff_squares :
    binomial.isZero = false ∧ IsExactDivisionTest squareDifference binomial := by
  refine ⟨by decide +kernel, (isExactDivisionTest_iff _ (by decide +kernel)).mpr ?_⟩
  intro quotient
  exact exact_of_multiple (toMvPolynomial_ne_zero (by decide +kernel))
    binomial_dvd_squareDifference

end MachinePolynomial

end PolyCore
