import Mathlib.Algebra.MvPolynomial.Equiv
import Mathlib.Algebra.Polynomial.Div
import Stocas.Poly.MultivariateGcd

namespace PolyCore

open GreatestCommonDivisor (IsGcd)
open SymbolTable (Symbol)

/-!
# Polynomials in one variable

A polynomial over a list of one variable stands for a univariate polynomial.  Over
a field its division is division with remainder, and its gcd is the monic one.
-/

/-- Monomials in one variable are ordered by their exponents. -/
theorem Monomial.lt_iff_exponent
    {left right : Monomial 1} :
    left < right ↔ left.exponent 0 < right.exponent 0 := by
  constructor
  · intro less
    obtain ⟨index, _, exponents⟩ := less
    rwa [Subsingleton.elim index 0] at exponents
  · intro exponents
    exact ⟨0, fun earlier before => absurd before (Fin.not_lt_zero earlier), exponents⟩

namespace MultivariatePolynomial

/-- A list of one variable. -/
def oneVariable : Fin 1 → Symbol :=
  fun _ => ⟨0⟩

variable {single : Fin 1 → Symbol} {K : Type}

section Ring

variable [CommRing K]

/-- The univariate polynomial that a polynomial in one variable stands for. -/
noncomputable def toPolynomial
    (poly : MultivariatePolynomial single K) :
    Polynomial K :=
  MvPolynomial.uniqueAlgEquiv K (Fin 1) poly.toMvPolynomial

theorem toPolynomial_injective :
    Function.Injective
      (toPolynomial : MultivariatePolynomial single K → Polynomial K) :=
  (MvPolynomial.uniqueAlgEquiv K (Fin 1)).injective.comp toMvPolynomial_injective

@[simp] theorem toPolynomial_zero :
    (0 : MultivariatePolynomial single K).toPolynomial = 0 := by
  rw [toPolynomial, toMvPolynomial_zero, map_zero]

/-- The two readings of a polynomial are zero together. -/
theorem toPolynomial_eq_zero_iff
    {poly : MultivariatePolynomial single K} :
    poly.toPolynomial = 0 ↔ poly.toMvPolynomial = 0 := by
  rw [toPolynomial, map_eq_zero_iff _ (MvPolynomial.uniqueAlgEquiv K (Fin 1)).injective]

theorem isZero_iff_toPolynomial
    {poly : MultivariatePolynomial single K} :
    poly.isZero = true ↔ poly.toPolynomial = 0 := by
  rw [isZero_iff, toPolynomial_eq_zero_iff]

/-- The coefficient of a power is the one of the monomial with that exponent. -/
theorem coeff_toPolynomial
    (poly : MultivariatePolynomial single K)
    (monomial : Monomial 1) :
    poly.toPolynomial.coeff (monomial.exponent 0) =
      poly.toMvPolynomial.coeff monomial.toFinsupp := by
  rw [toPolynomial, MvPolynomial.coeff_uniqueAlgEquiv]
  congr 1
  ext
  simp

/-- The leading term's exponent is the degree. -/
theorem degree_toPolynomial
    {poly : MultivariatePolynomial single K}
    {leading : Term 1 K}
    {rest : List (Term 1 K)}
    (shape : poly.terms = leading :: rest) :
    poly.toPolynomial.degree = leading.1.exponent 0 := by
  refine le_antisymm ?_ ?_
  · rw [Polynomial.degree_le_iff_coeff_zero]
    intro exponent exceeds
    by_contra occurs
    have atMost : (⟨fun _ => exponent⟩ : Monomial 1) ≤ leading.1 := by
      refine le_of_coeff_ne_zero shape ?_
      rw [← coeff_toPolynomial]
      exact occurs
    exact not_lt.mpr atMost (Monomial.lt_iff_exponent.mpr (WithBot.coe_lt_coe.mp exceeds))
  · apply Polynomial.le_degree_of_ne_zero
    rw [coeff_toPolynomial, coeff_leading shape]
    exact leading_ne_zero shape

theorem natDegree_of_terms
    {poly : MultivariatePolynomial single K}
    {leading : Term 1 K}
    {rest : List (Term 1 K)}
    (shape : poly.terms = leading :: rest) :
    poly.toPolynomial.natDegree = leading.1.exponent 0 :=
  Polynomial.natDegree_eq_of_degree_eq_some (degree_toPolynomial shape)

theorem leadingCoeff_toPolynomial
    {poly : MultivariatePolynomial single K}
    {leading : Term 1 K}
    {rest : List (Term 1 K)}
    (shape : poly.terms = leading :: rest) :
    poly.toPolynomial.leadingCoeff = leading.2 := by
  rw [Polynomial.leadingCoeff, natDegree_of_terms shape, coeff_toPolynomial,
    coeff_leading shape]

/-- Leading monomials compare like degrees. -/
theorem degree_lt_degree
    {left right : MultivariatePolynomial single K}
    (less : left.leadingMonomial < right.leadingMonomial) :
    left.toPolynomial.degree < right.toPolynomial.degree := by
  cases rightShape : right.terms with
  | nil =>
      rw [leadingMonomial, leadingMonomial, rightShape] at less
      exact absurd less not_lt_bot
  | cons rightLeading others =>
      rw [degree_toPolynomial rightShape]
      cases leftShape : left.terms with
      | nil =>
          rw [toPolynomial_eq_zero_iff.mpr (toMvPolynomial_eq_zero_iff.mpr leftShape),
            Polynomial.degree_zero]
          exact WithBot.bot_lt_coe _
      | cons leftLeading rest =>
          rw [leadingMonomial_of_terms leftShape,
            leadingMonomial_of_terms rightShape] at less
          rw [degree_toPolynomial leftShape]
          exact WithBot.coe_lt_coe.mpr
            (Monomial.lt_iff_exponent.mp (WithBot.coe_lt_coe.mp less))

/-- `degree_in` is the degree. -/
theorem degreeIn_eq_natDegree
    (poly : MultivariatePolynomial single K) :
    poly.degreeIn 0 = poly.toPolynomial.natDegree := by
  cases shape : poly.terms with
  | nil =>
      rw [toPolynomial_eq_zero_iff.mpr (toMvPolynomial_eq_zero_iff.mpr shape),
        Polynomial.natDegree_zero, degreeIn, shape, List.foldl_nil]
  | cons leading rest =>
      have below := List.pairwise_cons.mp (shape ▸ poly.descending)
      have keepsMaximum
          (terms : List (Term 1 K))
          (bounded : ∀ term ∈ terms, term.1.exponent 0 ≤ leading.1.exponent 0) :
          terms.foldl (fun maxExponent term => max maxExponent (term.1.exponent 0))
            (leading.1.exponent 0) = leading.1.exponent 0 := by
        induction terms with
        | nil =>
            rfl
        | cons first others inductionHypothesis =>
            rw [List.foldl_cons, max_eq_left (bounded first (by simp))]
            exact inductionHypothesis
              (fun term member => bounded term (List.mem_cons_of_mem first member))
      rw [natDegree_of_terms shape, degreeIn, shape, List.foldl_cons,
        max_eq_right (Nat.zero_le _)]
      refine keepsMaximum rest (fun term member => ?_)
      exact le_of_lt (Monomial.lt_iff_exponent.mp (below.1 term member))

variable [DecidableEq K]

@[simp] theorem toPolynomial_add
    (left right : MultivariatePolynomial single K) :
    (left + right).toPolynomial = left.toPolynomial + right.toPolynomial := by
  rw [toPolynomial, toMvPolynomial_add, map_add]
  rfl

@[simp] theorem toPolynomial_sub
    (left right : MultivariatePolynomial single K) :
    (left - right).toPolynomial = left.toPolynomial - right.toPolynomial := by
  rw [toPolynomial, toMvPolynomial_sub, map_sub]
  rfl

@[simp] theorem toPolynomial_fromTerm
    (monomial : Monomial 1)
    (coefficient : K) :
    (fromTerm monomial coefficient : MultivariatePolynomial single K).toPolynomial =
      Polynomial.monomial (monomial.exponent 0) coefficient := by
  rw [toPolynomial, toMvPolynomial_fromTerm, MvPolynomial.uniqueAlgEquiv_monomial]
  rfl

@[simp] theorem toPolynomial_constant
    (value : K) :
    (constant value : MultivariatePolynomial single K).toPolynomial =
      Polynomial.C value := by
  rw [constant, toPolynomial_fromTerm]
  rfl

end Ring

section Field

variable [Field K] [DecidableEq K]

@[simp] theorem toPolynomial_mul
    (left right : MultivariatePolynomial single K) :
    (left * right).toPolynomial = left.toPolynomial * right.toPolynomial := by
  rw [toPolynomial, toMvPolynomial_mul, map_mul]
  rfl

variable [FieldErrors K]

/-- Division by a monic polynomial is Mathlib's division with remainder. -/
theorem univariateDivRem_monic
    (dividend : MultivariatePolynomial single K)
    {divisor : MultivariatePolynomial single K}
    (monic : divisor.toPolynomial.Monic) :
    ∃ quotient remainder,
      univariateDivRem dividend divisor = .ok (quotient, remainder) ∧
      quotient.toPolynomial = dividend.toPolynomial /ₘ divisor.toPolynomial ∧
      remainder.toPolynomial = dividend.toPolynomial %ₘ divisor.toPolynomial := by
  obtain ⟨quotient, remainder, returns, division, lower⟩ :=
    univariateDivRem_spec dividend
      (fun isZero => monic.ne_zero (toPolynomial_eq_zero_iff.mpr isZero))
  have divided :
      remainder.toPolynomial + divisor.toPolynomial * quotient.toPolynomial =
        dividend.toPolynomial := by
    rw [toPolynomial, toPolynomial, toPolynomial, toPolynomial, division, map_add,
      map_mul]
    ring
  have unique := Polynomial.div_modByMonic_unique quotient.toPolynomial
    remainder.toPolynomial monic ⟨divided, degree_lt_degree lower⟩
  exact ⟨quotient, remainder, returns, unique.1.symm, unique.2.symm⟩

/-- Division by a monic divisor returns the cofactor. -/
theorem univariateDivRem_mul
    {dividend divisor : MultivariatePolynomial single K}
    {cofactor : Polynomial K}
    (monic : divisor.toPolynomial.Monic)
    (product : dividend.toPolynomial = divisor.toPolynomial * cofactor) :
    ∃ quotient remainder,
      univariateDivRem dividend divisor = .ok (quotient, remainder) ∧
      quotient.toPolynomial = cofactor := by
  obtain ⟨quotient, remainder, returns, isQuotient, _⟩ :=
    univariateDivRem_monic dividend monic
  refine ⟨quotient, remainder, returns, ?_⟩
  rw [isQuotient, product, Polynomial.mul_divByMonic_cancel_left _ monic]

/-- `univariate_gcd` returns the monic greatest common divisor. -/
theorem univariateGcd_isGcd
    (left right : MultivariatePolynomial single K) :
    ∃ common,
      univariateGcd left right = .ok common ∧
      IsGcd left.toPolynomial right.toPolynomial common.toPolynomial ∧
      (common.toPolynomial ≠ 0 → common.toPolynomial.Monic) := by
  obtain ⟨common, returns, isMonicGcd, _⟩ := univariateGcd_spec left right
  refine ⟨common, returns, ?_, ?_⟩
  · refine IsGcd.of_map (MvPolynomial.uniqueAlgEquiv K (Fin 1)).symm.toMulEquiv ?_
    have inverse
        (poly : MultivariatePolynomial single K) :
        (MvPolynomial.uniqueAlgEquiv K (Fin 1)).symm.toMulEquiv poly.toPolynomial =
          poly.toMvPolynomial :=
      AlgEquiv.symm_apply_apply _ _
    simpa only [inverse] using isMonicGcd.toIsGcd
  · intro isNonzero
    obtain ⟨leading, rest, shape⟩ :=
      exists_leading (fun isZero => isNonzero (toPolynomial_eq_zero_iff.mpr isZero))
    have monic := isMonicGcd.monic
      (fun isZero => isNonzero (toPolynomial_eq_zero_iff.mpr isZero))
    rw [Polynomial.Monic, leadingCoeff_toPolynomial shape, ← leadingCoeff_leading shape]
    exact monic

/-- A monic greatest common divisor is the one that `univariate_gcd` returns. -/
theorem univariateGcd_eq
    {left right : MultivariatePolynomial single K}
    {candidate : Polynomial K}
    (isGcd : IsGcd left.toPolynomial right.toPolynomial candidate)
    (monic : candidate.Monic) :
    ∃ common,
      univariateGcd left right = .ok common ∧ common.toPolynomial = candidate := by
  obtain ⟨common, returns, isCommon, commonMonic⟩ := univariateGcd_isGcd left right
  have divides : common.toPolynomial ∣ candidate :=
    isGcd.greatest _ isCommon.dvd_left isCommon.dvd_right
  have isNonzero : common.toPolynomial ≠ 0 :=
    fun isZero => monic.ne_zero (zero_dvd_iff.mp (isZero ▸ divides))
  refine ⟨common, returns, ?_⟩
  exact Polynomial.eq_of_monic_of_associated (commonMonic isNonzero) monic
    (associated_of_dvd_dvd divides
      (isCommon.greatest _ isGcd.dvd_left isGcd.dvd_right))

/-- `monic_normalize` divides by the leading coefficient. -/
theorem monicNormalize_toPolynomial
    {poly : MultivariatePolynomial single K}
    (isNonzero : poly.toPolynomial ≠ 0) :
    ∃ normal,
      monicNormalize poly = .ok normal ∧
      normal.toPolynomial =
        poly.toPolynomial * Polynomial.C poly.toPolynomial.leadingCoeff⁻¹ := by
  obtain ⟨leading, rest, shape⟩ :=
    exists_leading (fun isZero => isNonzero (toPolynomial_eq_zero_iff.mpr isZero))
  refine ⟨poly * constant leading.2⁻¹, ?_, ?_⟩
  · rw [monicNormalize, shape]
    simp only [fieldInv, if_neg (leading_ne_zero shape), Outcome.ok_bind]
  · rw [toPolynomial_mul, toPolynomial_constant, leadingCoeff_toPolynomial shape]

/-- `monic_normalize` leaves a monic polynomial as it is. -/
theorem monicNormalize_monic
    {poly : MultivariatePolynomial single K}
    (monic : poly.toPolynomial.Monic) :
    monicNormalize poly = .ok poly := by
  obtain ⟨normal, returns, isNormal⟩ := monicNormalize_toPolynomial monic.ne_zero
  rw [monic.leadingCoeff, inv_one, map_one, mul_one] at isNormal
  rw [returns, toPolynomial_injective isNormal]

end Field

end MultivariatePolynomial

end PolyCore
