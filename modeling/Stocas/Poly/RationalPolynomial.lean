import Mathlib.RingTheory.Polynomial.UniqueFactorization
import Stocas.Poly.MachineDivision
import Stocas.Poly.RationalGcd

namespace PolyCore

open GreatestCommonDivisor (IsGcd)
open MachinePolynomial (constant)
open Outcome (bind_eq_ok)
open SymbolTable (Symbol)

/-!
# Rational functions

A rational function is a pair of polynomials.  The constructor divides both by their
greatest common divisor and makes the denominator monic, and every operation ends
with the constructor.
-/

/-- The body of the constructor of `RationalPolynomial`. -/
def lowestTerms
    {numVars : ℕ}
    {vars : Fin numVars → Symbol}
    (rationalMultivariateGcd :
      MachinePolynomial vars ℚ → MachinePolynomial vars ℚ →
        Except PolyError (MachinePolynomial vars ℚ))
    (numerator denominator : MachinePolynomial vars ℚ) :
    Except PolyError (MachinePolynomial vars ℚ × MachinePolynomial vars ℚ) :=
  if denominator.isZero then
    .error (.domainError "RationalPolynomial: zero denominator")
  else do
    let gcd ← rationalMultivariateGcd numerator denominator
    let (numerator, _) ← numerator.multivariateDivRem gcd
    let (denominator, _) ← denominator.multivariateDivRem gcd
    let leading ← denominator.leadingTerm
    let scale ← fieldInv leading.2
    .ok (numerator * constant scale, denominator * constant scale)

/-- A gcd that is a greatest common divisor whenever it is returned. -/
structure ReducingGcd
    {numVars : ℕ}
    (vars : Fin numVars → Symbol) where
  run :
    MachinePolynomial vars ℚ → MachinePolynomial vars ℚ →
      Except PolyError (MachinePolynomial vars ℚ)
  isGcd :
    ∀ {left right common},
      run left right = .ok common →
        IsGcd left.toMvPolynomial right.toMvPolynomial common.toMvPolynomial

/-- A fraction in lowest terms with a monic denominator. -/
structure IsLowestTerms
    {numVars : ℕ}
    (numerator denominator : MvPolynomial (Fin numVars) ℚ) : Prop where
  coprime : IsRelPrime numerator denominator
  monic : MonomialOrder.lex.Monic denominator

variable {numVars : ℕ} {vars : Fin numVars → Symbol}

section Constructor

variable {gcd : ReducingGcd vars} {numerator denominator : MachinePolynomial vars ℚ}

/-- With a gcd, the constructor returns the fraction in lowest terms. -/
theorem lowestTerms_of_gcd
    (nonzero : denominator.toMvPolynomial ≠ 0)
    {common : MachinePolynomial vars ℚ}
    (returned : gcd.run numerator denominator = .ok common) :
    ∃ reducedNumerator reducedDenominator,
      lowestTerms gcd.run numerator denominator =
          .ok (reducedNumerator, reducedDenominator) ∧
        IsLowestTerms reducedNumerator.toMvPolynomial reducedDenominator.toMvPolynomial ∧
        reducedNumerator.toMvPolynomial * denominator.toMvPolynomial =
          numerator.toMvPolynomial * reducedDenominator.toMvPolynomial := by
  have isGcd := gcd.isGcd returned
  have commonNonzero : common.toMvPolynomial ≠ 0 :=
    ne_zero_of_dvd_ne_zero nonzero isGcd.dvd_right
  obtain ⟨numeratorPart, numeratorDivided, numeratorProduct⟩ :=
    MachinePolynomial.multivariateDivRem_exact commonNonzero isGcd.dvd_left
  obtain ⟨denominatorPart, denominatorDivided, denominatorProduct⟩ :=
    MachinePolynomial.multivariateDivRem_exact commonNonzero isGcd.dvd_right
  have partNonzero : denominatorPart.toMvPolynomial ≠ 0 := by
    intro isZero
    rw [isZero, zero_mul] at denominatorProduct
    exact nonzero denominatorProduct.symm
  obtain ⟨leading, rest, shape⟩ := MultivariatePolynomial.exists_leading partNonzero
  have leadingNonzero := MultivariatePolynomial.leading_ne_zero shape
  have isLeading : denominatorPart.leadingTerm = .ok leading := by
    simp [MultivariatePolynomial.leadingTerm, MultivariatePolynomial.leadingTerm?, shape]
  have isScale : fieldInv leading.2 = .ok leading.2⁻¹ :=
    fieldInv_eq_ok.mpr ⟨leadingNonzero, rfl⟩
  have notZero : denominator.isZero = false :=
    Bool.eq_false_iff.mpr fun isZero =>
      nonzero (MultivariatePolynomial.isZero_iff.mp isZero)
  refine ⟨numeratorPart * constant leading.2⁻¹, denominatorPart * constant leading.2⁻¹,
    ?_, ⟨?_, ?_⟩, ?_⟩
  · rw [lowestTerms, if_neg (Bool.eq_false_iff.mp notZero), returned]
    simp only [Outcome.ok_bind, numeratorDivided, denominatorDivided, isLeading, isScale]
  · rw [MachinePolynomial.toMvPolynomial_mul_constant,
      MachinePolynomial.toMvPolynomial_mul_constant]
    have isUnit : IsUnit (MvPolynomial.C leading.2⁻¹ : MvPolynomial (Fin numVars) ℚ) :=
      (isUnit_iff_ne_zero.mpr (inv_ne_zero leadingNonzero)).map MvPolynomial.C
    apply (isRelPrime_mul_unit_right isUnit).mpr
    apply isGcd.isRelPrime commonNonzero
    · rw [mul_comm, numeratorProduct]
    · rw [mul_comm, denominatorProduct]
  · rw [MachinePolynomial.toMvPolynomial_mul_constant, MonomialOrder.Monic,
      MonomialOrder.leadingCoeff_mul, MultivariatePolynomial.leadingCoeff_leading shape,
      MonomialOrder.leadingCoeff_C]
    exact mul_inv_cancel₀ leadingNonzero
  · rw [MachinePolynomial.toMvPolynomial_mul_constant,
      MachinePolynomial.toMvPolynomial_mul_constant, ← numeratorProduct,
      ← denominatorProduct]
    ring

/-- What the constructor returns is the fraction in lowest terms. -/
theorem isLowestTerms_of_lowestTerms
    {reducedNumerator reducedDenominator : MachinePolynomial vars ℚ}
    (returned :
      lowestTerms gcd.run numerator denominator =
        .ok (reducedNumerator, reducedDenominator)) :
    denominator.toMvPolynomial ≠ 0 ∧
      IsLowestTerms reducedNumerator.toMvPolynomial reducedDenominator.toMvPolynomial ∧
      reducedNumerator.toMvPolynomial * denominator.toMvPolynomial =
        numerator.toMvPolynomial * reducedDenominator.toMvPolynomial := by
  have nonzero : denominator.toMvPolynomial ≠ 0 := by
    intro isZero
    rw [lowestTerms, if_pos (MultivariatePolynomial.isZero_iff.mpr isZero)] at returned
    cases returned
  refine ⟨nonzero, ?_⟩
  have notZero : ¬ denominator.isZero = true :=
    fun isZero => nonzero (MultivariatePolynomial.isZero_iff.mp isZero)
  have computed := returned
  rw [lowestTerms, if_neg notZero] at computed
  obtain ⟨common, commonReturned, _⟩ := bind_eq_ok.mp computed
  obtain ⟨_, _, sameReturned, lowest⟩ := lowestTerms_of_gcd nonzero commonReturned
  rw [sameReturned] at returned
  cases returned
  exact lowest

end Constructor

/-- `RationalPolynomial`: a numerator and a denominator in lowest terms. -/
structure RationalPolynomial
    {numVars : ℕ}
    (vars : Fin numVars → Symbol) where
  numerator : MachinePolynomial vars ℚ
  denominator : MachinePolynomial vars ℚ
  lowest : IsLowestTerms numerator.toMvPolynomial denominator.toMvPolynomial

namespace RationalPolynomial

/-- `operator==` compares numerators and denominators. -/
instance : DecidableEq (RationalPolynomial vars) := by
  intro left right
  exact decidable_of_iff
    (left.numerator = right.numerator ∧ left.denominator = right.denominator)
    ⟨by rintro ⟨_, _⟩; cases left; cases right; simp_all, by rintro rfl; exact ⟨rfl, rfl⟩⟩

/-- `is_zero`. -/
def isZero (value : RationalPolynomial vars) : Bool :=
  value.numerator.isZero

/-- `from_polynomial`, which does not reduce. -/
def fromPolynomial (numerator : MachinePolynomial vars ℚ) : RationalPolynomial vars where
  numerator := numerator
  denominator := constant 1
  lowest := by
    rw [MachinePolynomial.toMvPolynomial_constant, map_one]
    exact ⟨isRelPrime_one_right, MonomialOrder.monic_one⟩

/-- `operator-` with one operand, which does not reduce. -/
instance : Neg (RationalPolynomial vars) where
  neg value :=
    { numerator := -value.numerator
      denominator := value.denominator
      lowest := by
        rw [MachinePolynomial.toMvPolynomial_neg]
        exact ⟨value.lowest.coprime.neg_left, value.lowest.monic⟩ }

variable (gcd : ReducingGcd vars)

/-- The constructor of `RationalPolynomial`. -/
def construct
    (numerator denominator : MachinePolynomial vars ℚ) :
    Except PolyError (RationalPolynomial vars) :=
  match returned : lowestTerms gcd.run numerator denominator with
  | .error error => .error error
  | .ok (reducedNumerator, reducedDenominator) =>
      .ok
        { numerator := reducedNumerator
          denominator := reducedDenominator
          lowest := (isLowestTerms_of_lowestTerms returned).2.1 }

/-- `operator+`. -/
def add (left right : RationalPolynomial vars) :
    Except PolyError (RationalPolynomial vars) :=
  construct gcd
    (left.numerator * right.denominator + right.numerator * left.denominator)
    (left.denominator * right.denominator)

/-- `operator-`. -/
def sub (left right : RationalPolynomial vars) :
    Except PolyError (RationalPolynomial vars) :=
  construct gcd
    (left.numerator * right.denominator - right.numerator * left.denominator)
    (left.denominator * right.denominator)

/-- `operator*`. -/
def mul (left right : RationalPolynomial vars) :
    Except PolyError (RationalPolynomial vars) :=
  construct gcd (left.numerator * right.numerator) (left.denominator * right.denominator)

/-- `operator/`. -/
def div (left right : RationalPolynomial vars) :
    Except PolyError (RationalPolynomial vars) :=
  construct gcd (left.numerator * right.denominator) (left.denominator * right.numerator)

/-- `RationalPolynomialField::zero`. -/
def zero : RationalPolynomial vars :=
  fromPolynomial 0

/-- `RationalPolynomialField::one`. -/
def one : RationalPolynomial vars :=
  fromPolynomial (constant 1)

/-- `RationalPolynomialField::inv`. -/
def inv (value : RationalPolynomial vars) : Except PolyError (RationalPolynomial vars) :=
  if value.isZero then
    .error
      (.domainError "RationalPolynomialField::inv: zero has no multiplicative inverse")
  else
    construct gcd value.denominator value.numerator

/-- `RationalPolynomialField::div_rem`. -/
def divRem (left right : RationalPolynomial vars) :
    Except PolyError (RationalPolynomial vars × RationalPolynomial vars) := do
  let inverse ← inv gcd right
  let quotient ← mul gcd left inverse
  .ok (quotient, zero)

end RationalPolynomial

end PolyCore
