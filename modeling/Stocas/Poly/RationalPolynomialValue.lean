import Mathlib.RingTheory.Localization.FractionRing
import Mathlib.Tactic.FieldSimp
import Mathlib.Tactic.LinearCombination
import Stocas.Library.MonicDivision
import Stocas.Poly.RationalPolynomial

namespace PolyCore

open MachinePolynomial (constant wrapped)
open SymbolTable (Symbol)
open WrappedExponents (Below remainders wrap)

/-!
# The values of rational functions

A fraction in lowest terms with a monic denominator is determined by its value, so
the comparison of terms is the comparison of rational functions.  The operations
compute with exponents modulo 2^32; an operation is that of the field exactly when
its fraction survives this.
-/

/-- The field of rational functions in some variables. -/
abbrev RationalFunction (numVars : ℕ) : Type :=
  FractionRing (MvPolynomial (Fin numVars) ℚ)

variable {numVars : ℕ} {vars : Fin numVars → Symbol}

/-- The quotient of two polynomials. -/
noncomputable def fraction
    (numerator denominator : MvPolynomial (Fin numVars) ℚ) :
    RationalFunction numVars :=
  algebraMap _ _ numerator / algebraMap _ _ denominator

section Fraction

variable {numerator denominator otherNumerator otherDenominator :
  MvPolynomial (Fin numVars) ℚ}

/-- A nonzero polynomial is a nonzero rational function. -/
theorem algebraMap_ne_zero
    {poly : MvPolynomial (Fin numVars) ℚ}
    (nonzero : poly ≠ 0) :
    algebraMap (MvPolynomial (Fin numVars) ℚ) (RationalFunction numVars) poly ≠ 0 :=
  (map_ne_zero_iff _ (IsFractionRing.injective _ _)).mpr nonzero

theorem fraction_eq_iff
    (nonzero : denominator ≠ 0)
    (otherNonzero : otherDenominator ≠ 0) :
    fraction numerator denominator = fraction otherNumerator otherDenominator ↔
      numerator * otherDenominator = otherNumerator * denominator := by
  rw [fraction, fraction,
    div_eq_div_iff (algebraMap_ne_zero nonzero) (algebraMap_ne_zero otherNonzero),
    ← map_mul, ← map_mul, (IsFractionRing.injective _ (RationalFunction numVars)).eq_iff]

theorem fraction_add
    (nonzero : denominator ≠ 0)
    (otherNonzero : otherDenominator ≠ 0) :
    fraction (numerator * otherDenominator + otherNumerator * denominator)
        (denominator * otherDenominator) =
      fraction numerator denominator + fraction otherNumerator otherDenominator := by
  rw [fraction, fraction, fraction,
    div_add_div _ _ (algebraMap_ne_zero nonzero) (algebraMap_ne_zero otherNonzero),
    map_add, map_mul, map_mul, map_mul, mul_comm (algebraMap _ _ otherNumerator)]

theorem fraction_neg :
    fraction (-numerator) denominator = -fraction numerator denominator := by
  rw [fraction, fraction, map_neg, neg_div]

theorem fraction_mul :
    fraction (numerator * otherNumerator) (denominator * otherDenominator) =
      fraction numerator denominator * fraction otherNumerator otherDenominator := by
  rw [fraction, fraction, fraction, map_mul, map_mul, mul_div_mul_comm]

theorem fraction_inv :
    fraction denominator numerator = (fraction numerator denominator)⁻¹ := by
  rw [fraction, fraction, inv_div]

theorem fraction_div :
    fraction (numerator * otherDenominator) (denominator * otherNumerator) =
      fraction numerator denominator / fraction otherNumerator otherDenominator := by
  rw [fraction_mul, div_eq_mul_inv, ← fraction_inv]

end Fraction

/-- Monic polynomials that divide each other are equal. -/
theorem eq_of_monic_of_dvd
    {left right : MvPolynomial (Fin numVars) ℚ}
    (leftMonic : MonomialOrder.lex.Monic left)
    (rightMonic : MonomialOrder.lex.Monic right)
    (divides : left ∣ right)
    (divided : right ∣ left) :
    left = right := by
  refine MonicDivision.eq_of_dvd_of_degree_le rightMonic leftMonic divided ?_
  obtain ⟨cofactor, product⟩ := divides
  have nonzero := mul_ne_zero_iff.mp (product ▸ rightMonic.ne_zero)
  rw [product, MonomialOrder.degree_mul nonzero.1 nonzero.2]
  exact le_self_add

/-- Equal fractions in lowest terms with monic denominators are the same pair. -/
theorem IsLowestTerms.unique
    {numerator denominator otherNumerator otherDenominator : MvPolynomial (Fin numVars) ℚ}
    (lowest : IsLowestTerms numerator denominator)
    (otherLowest : IsLowestTerms otherNumerator otherDenominator)
    (same : numerator * otherDenominator = otherNumerator * denominator) :
    numerator = otherNumerator ∧ denominator = otherDenominator := by
  have divides :=
    GreatestCommonDivisor.dvd_of_cross_mul_eq lowest.coprime same
  have divided :=
    GreatestCommonDivisor.dvd_of_cross_mul_eq otherLowest.coprime same.symm
  have denominators := eq_of_monic_of_dvd lowest.monic otherLowest.monic divides divided
  refine ⟨?_, denominators⟩
  rw [denominators] at same
  exact mul_right_cancel₀ otherLowest.monic.ne_zero same

namespace RationalPolynomial

/-- The rational function that a value represents. -/
noncomputable def value (rational : RationalPolynomial vars) : RationalFunction numVars :=
  fraction rational.numerator.toMvPolynomial rational.denominator.toMvPolynomial

theorem denominator_ne_zero
    (rational : RationalPolynomial vars) :
    rational.denominator.toMvPolynomial ≠ 0 :=
  rational.lowest.monic.ne_zero

/-- Comparing terms compares rational functions. -/
theorem eq_iff_value_eq
    {left right : RationalPolynomial vars} :
    left = right ↔ left.value = right.value := by
  refine ⟨congrArg value, fun same => ?_⟩
  rw [value, value, fraction_eq_iff left.denominator_ne_zero right.denominator_ne_zero]
    at same
  obtain ⟨numerators, denominators⟩ := left.lowest.unique right.lowest same
  cases left
  cases right
  congr 1
  · exact MachinePolynomial.ext_polynomial
      (MultivariatePolynomial.toMvPolynomial_injective numerators)
  · exact MachinePolynomial.ext_polynomial
      (MultivariatePolynomial.toMvPolynomial_injective denominators)

section Construct

variable {gcd : ReducingGcd vars} {numerator denominator : MachinePolynomial vars ℚ}

/-- What the constructor returns represents the quotient. -/
theorem value_of_construct
    {result : RationalPolynomial vars}
    (returned : construct gcd numerator denominator = .ok result) :
    denominator.toMvPolynomial ≠ 0 ∧
      result.value = fraction numerator.toMvPolynomial denominator.toMvPolynomial := by
  rw [construct] at returned
  split at returned
  · cases returned
  · rename_i computed
    cases returned
    obtain ⟨nonzero, lowest, same⟩ := isLowestTerms_of_lowestTerms computed
    exact ⟨nonzero, (fraction_eq_iff lowest.monic.ne_zero nonzero).mpr same⟩

/-- With a gcd, the constructor returns. -/
theorem construct_of_gcd
    (nonzero : denominator.toMvPolynomial ≠ 0)
    {common : MachinePolynomial vars ℚ}
    (returned : gcd.run numerator denominator = .ok common) :
    ∃ result, construct gcd numerator denominator = .ok result := by
  obtain ⟨_, _, computed, _⟩ := lowestTerms_of_gcd nonzero returned
  rw [construct]
  split
  · rename_i failed
    rw [computed] at failed
    cases failed
  · exact ⟨_, rfl⟩

theorem construct_zero
    (isZero : denominator.toMvPolynomial = 0) :
    construct gcd numerator denominator =
      .error (.domainError "RationalPolynomial: zero denominator") := by
  have fails :
      lowestTerms gcd.run numerator denominator =
        .error (.domainError "RationalPolynomial: zero denominator") := by
    rw [lowestTerms, if_pos (MultivariatePolynomial.isZero_iff.mpr isZero)]
  rw [construct]
  split
  · rename_i failed
    rw [fails] at failed
    cases failed
    rfl
  · rename_i computed
    rw [fails] at computed
    cases computed

end Construct

/--
With every exponent replaced by its remainder modulo 2^32, the denominator is not zero
and the fraction is the same.
-/
structure Survives (numerator denominator : MvPolynomial (Fin numVars) ℚ) : Prop where
  denominator_ne_zero : remainders exponentModulus denominator ≠ 0
  sameFraction :
    remainders exponentModulus numerator * denominator =
      numerator * remainders exponentModulus denominator

/-- A fraction in which no exponent reaches 2^32 survives. -/
theorem Survives.of_below
    {numerator denominator : MvPolynomial (Fin numVars) ℚ}
    (nonzero : denominator ≠ 0)
    (numeratorBelow : Below exponentModulus numerator)
    (denominatorBelow : Below exponentModulus denominator) :
    Survives numerator denominator where
  denominator_ne_zero := by
    rwa [WrappedExponents.remainders_of_below exponentModulus_pos denominatorBelow]
  sameFraction := by
    rw [WrappedExponents.remainders_of_below exponentModulus_pos numeratorBelow,
      WrappedExponents.remainders_of_below exponentModulus_pos denominatorBelow]

/-- The gcd returns if the constructor calls it. -/
def Answers
    (gcd : ReducingGcd vars)
    (numerator denominator : MachinePolynomial vars ℚ) : Prop :=
  denominator.toMvPolynomial ≠ 0 → ∃ common, gcd.run numerator denominator = .ok common

/-- Polynomials computed with 32-bit exponents for an exact fraction. -/
structure Computes
    (numerator denominator : MachinePolynomial vars ℚ)
    (exactNumerator exactDenominator : MvPolynomial (Fin numVars) ℚ) : Prop where
  numerator : numerator.wrapped = wrap exponentModulus exactNumerator
  denominator : denominator.wrapped = wrap exponentModulus exactDenominator
  denominator_ne_zero : exactDenominator ≠ 0

section Survives

variable {gcd : ReducingGcd vars} {numerator denominator : MachinePolynomial vars ℚ}
  {exactNumerator exactDenominator : MvPolynomial (Fin numVars) ℚ}

/-- What is computed has the remainders of the exponents. -/
theorem Computes.remainders
    (computes : Computes numerator denominator exactNumerator exactDenominator) :
    numerator.toMvPolynomial = remainders exponentModulus exactNumerator ∧
      denominator.toMvPolynomial = remainders exponentModulus exactDenominator :=
  ⟨WrappedExponents.eq_remainders exponentModulus_pos numerator.fits.below
      computes.numerator,
    WrappedExponents.eq_remainders exponentModulus_pos denominator.fits.below
      computes.denominator⟩

/-- What is returned represents the exact fraction exactly when that survives. -/
theorem Computes.value_eq_iff
    (computes : Computes numerator denominator exactNumerator exactDenominator)
    {result : RationalPolynomial vars}
    (returned : construct gcd numerator denominator = .ok result) :
    result.value = fraction exactNumerator exactDenominator ↔
      Survives exactNumerator exactDenominator := by
  obtain ⟨stays, isValue⟩ := value_of_construct returned
  obtain ⟨numerators, denominators⟩ := computes.remainders
  rw [isValue, fraction_eq_iff stays computes.denominator_ne_zero, numerators,
    denominators]
  refine ⟨fun same => ⟨denominators ▸ stays, same⟩, fun survives => survives.sameFraction⟩

/-- The constructor returns the exact fraction exactly when that survives. -/
theorem Computes.construct_iff
    (computes : Computes numerator denominator exactNumerator exactDenominator)
    (answers : Answers gcd numerator denominator) :
    (∃ result,
        construct gcd numerator denominator = .ok result ∧
          result.value = fraction exactNumerator exactDenominator) ↔
      Survives exactNumerator exactDenominator := by
  constructor
  · rintro ⟨result, returned, isExact⟩
    exact (computes.value_eq_iff returned).mp isExact
  · intro survives
    have stays : denominator.toMvPolynomial ≠ 0 := by
      rw [computes.remainders.2]
      exact survives.denominator_ne_zero
    obtain ⟨common, found⟩ := answers stays
    obtain ⟨result, returned⟩ := construct_of_gcd stays found
    exact ⟨result, returned, (computes.value_eq_iff returned).mpr survives⟩

end Survives

section Operations

variable (left right : RationalPolynomial vars)

/-- The sum survives. -/
def SumSurvives : Prop :=
  Survives
    (left.numerator.toMvPolynomial * right.denominator.toMvPolynomial +
      right.numerator.toMvPolynomial * left.denominator.toMvPolynomial)
    (left.denominator.toMvPolynomial * right.denominator.toMvPolynomial)

/-- The difference survives. -/
def DifferenceSurvives : Prop :=
  Survives
    (left.numerator.toMvPolynomial * right.denominator.toMvPolynomial -
      right.numerator.toMvPolynomial * left.denominator.toMvPolynomial)
    (left.denominator.toMvPolynomial * right.denominator.toMvPolynomial)

/-- The product survives. -/
def ProductSurvives : Prop :=
  Survives
    (left.numerator.toMvPolynomial * right.numerator.toMvPolynomial)
    (left.denominator.toMvPolynomial * right.denominator.toMvPolynomial)

/-- The quotient survives. -/
def QuotientSurvives : Prop :=
  Survives
    (left.numerator.toMvPolynomial * right.denominator.toMvPolynomial)
    (left.denominator.toMvPolynomial * right.numerator.toMvPolynomial)

/-- A product of polynomials is that of what they denote, wrapped. -/
theorem wrapped_product
    (one other : MachinePolynomial vars ℚ) :
    (one * other).wrapped =
      wrap exponentModulus (one.toMvPolynomial * other.toMvPolynomial) := by
  rw [MachinePolynomial.wrapped_mul, map_mul]
  rfl

theorem computes_add :
    Computes
      (left.numerator * right.denominator + right.numerator * left.denominator)
      (left.denominator * right.denominator)
      (left.numerator.toMvPolynomial * right.denominator.toMvPolynomial +
        right.numerator.toMvPolynomial * left.denominator.toMvPolynomial)
      (left.denominator.toMvPolynomial * right.denominator.toMvPolynomial) where
  numerator := by
    rw [MachinePolynomial.wrapped_add, wrapped_product, wrapped_product, map_add]
  denominator := wrapped_product _ _
  denominator_ne_zero := mul_ne_zero left.denominator_ne_zero right.denominator_ne_zero

theorem computes_sub :
    Computes
      (left.numerator * right.denominator - right.numerator * left.denominator)
      (left.denominator * right.denominator)
      (left.numerator.toMvPolynomial * right.denominator.toMvPolynomial -
        right.numerator.toMvPolynomial * left.denominator.toMvPolynomial)
      (left.denominator.toMvPolynomial * right.denominator.toMvPolynomial) where
  numerator := by
    rw [MachinePolynomial.wrapped_sub, wrapped_product, wrapped_product, map_sub]
  denominator := wrapped_product _ _
  denominator_ne_zero := mul_ne_zero left.denominator_ne_zero right.denominator_ne_zero

theorem computes_mul :
    Computes
      (left.numerator * right.numerator)
      (left.denominator * right.denominator)
      (left.numerator.toMvPolynomial * right.numerator.toMvPolynomial)
      (left.denominator.toMvPolynomial * right.denominator.toMvPolynomial) where
  numerator := wrapped_product _ _
  denominator := wrapped_product _ _
  denominator_ne_zero := mul_ne_zero left.denominator_ne_zero right.denominator_ne_zero

theorem computes_div
    {right : RationalPolynomial vars}
    (nonzero : right.numerator.toMvPolynomial ≠ 0) :
    Computes
      (left.numerator * right.denominator)
      (left.denominator * right.numerator)
      (left.numerator.toMvPolynomial * right.denominator.toMvPolynomial)
      (left.denominator.toMvPolynomial * right.numerator.toMvPolynomial) where
  numerator := wrapped_product _ _
  denominator := wrapped_product _ _
  denominator_ne_zero := mul_ne_zero left.denominator_ne_zero nonzero

/-- The exact fraction of a difference. -/
theorem fraction_sub :
    fraction
        (left.numerator.toMvPolynomial * right.denominator.toMvPolynomial -
          right.numerator.toMvPolynomial * left.denominator.toMvPolynomial)
        (left.denominator.toMvPolynomial * right.denominator.toMvPolynomial) =
      left.value - right.value := by
  rw [sub_eq_add_neg, sub_eq_add_neg, value, value, ← fraction_neg, ← neg_mul,
    fraction_add left.denominator_ne_zero right.denominator_ne_zero]

end Operations

end RationalPolynomial

end PolyCore
