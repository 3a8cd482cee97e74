import Mathlib
import Stocas.Library.GreatestCommonDivisor
import Stocas.Library.Outcome
import Stocas.Poly.Denotation

namespace PolyCore

open GreatestCommonDivisor (IsGcd)
open Outcome (ok_bind)
open SymbolTable (Symbol)

/-!
# Division and the univariate gcd

Every step of a division cancels the leading term of what is left, so the loops
end.  The remainder of a multivariate division is zero exactly when the divisor
divides, and the Euclidean algorithm returns the monic greatest common divisor.
-/

/-- The text of the `std::domain_error` that a field's `inv` throws on zero. -/
class FieldErrors (K : Type) where
  inverseOfZero : String

/-- A field's `inv`. -/
def fieldInv
    {K : Type}
    [Field K]
    [DecidableEq K]
    [FieldErrors K]
    (value : K) :
    Except PolyError K :=
  if value = 0 then
    .error (.domainError (FieldErrors.inverseOfZero K))
  else
    .ok value⁻¹

/-- Only the inverse of a nonzero value is returned. -/
theorem fieldInv_eq_ok
    {K : Type}
    [Field K]
    [DecidableEq K]
    [FieldErrors K]
    {value inverse : K} :
    fieldInv value = .ok inverse ↔ value ≠ 0 ∧ value⁻¹ = inverse := by
  by_cases isZero : value = 0
  · simp [fieldInv, isZero]
  · simp [fieldInv, isZero]

/-- The loops of a division end because leading monomials only go down. -/
instance {numVars : ℕ} : WellFoundedRelation (WithBot (Monomial numVars)) where
  rel := (· < ·)
  wf := wellFounded_lt

namespace MultivariatePolynomial

variable {numVars : ℕ} {vars : Fin numVars → Symbol} {K : Type}

/-- The monomial of the leading term, which the loops of a division lower. -/
def leadingMonomial
    [Zero K]
    (poly : MultivariatePolynomial vars K) :
    WithBot (Monomial numVars) :=
  match poly.terms with
  | [] => ⊥
  | leading :: _ => leading.1

theorem leadingMonomial_of_terms
    [Zero K]
    {poly : MultivariatePolynomial vars K}
    {leading : Term numVars K}
    {rest : List (Term numVars K)}
    (shape : poly.terms = leading :: rest) :
    poly.leadingMonomial = leading.1 := by
  rw [leadingMonomial, shape]

/-- A polynomial without a monomial from the bound on leads with a lower one. -/
theorem leadingMonomial_lt
    [CommRing K]
    {poly : MultivariatePolynomial vars K}
    {bound : Monomial numVars}
    (below :
      ∀ monomial, poly.toMvPolynomial.coeff monomial.toFinsupp ≠ 0 →
        monomial < bound) :
    poly.leadingMonomial < bound := by
  cases shape : poly.terms with
  | nil =>
      rw [leadingMonomial, shape]
      exact WithBot.bot_lt_coe bound
  | cons leading rest =>
      rw [leadingMonomial_of_terms shape]
      refine WithBot.coe_lt_coe.mpr (below leading.1 ?_)
      rw [coeff_leading shape]
      exact leading_ne_zero shape

theorem terms_fromTerm
    [Zero K]
    [DecidableEq K]
    {monomial : Monomial numVars}
    {coefficient : K}
    (isNonzero : coefficient ≠ 0) :
    (fromTerm monomial coefficient : MultivariatePolynomial vars K).terms =
      [(monomial, coefficient)] := by
  rw [fromTerm, dif_neg isNonzero]

variable [Field K] [DecidableEq K]

/-- Subtracting what has the leading term and nothing above lowers the leading monomial. -/
theorem leadingMonomial_sub_lt_of_coeff
    {left right : MultivariatePolynomial vars K}
    {leading : Term numVars K}
    {rest : List (Term numVars K)}
    (leftShape : left.terms = leading :: rest)
    (sameLeading : right.toMvPolynomial.coeff leading.1.toFinsupp = leading.2)
    (rightAtMost :
      ∀ monomial, right.toMvPolynomial.coeff monomial.toFinsupp ≠ 0 →
        monomial ≤ leading.1) :
    (left - right).leadingMonomial < left.leadingMonomial := by
  rw [leadingMonomial_of_terms leftShape]
  refine leadingMonomial_lt ?_
  intro monomial occurs
  rw [toMvPolynomial_sub, MvPolynomial.coeff_sub] at occurs
  have atMost : monomial ≤ leading.1 := by
    by_cases inLeft : left.toMvPolynomial.coeff monomial.toFinsupp = 0
    · refine rightAtMost monomial ?_
      intro inRight
      exact occurs (by rw [inLeft, inRight, sub_zero])
    · exact le_of_coeff_ne_zero leftShape inLeft
  refine lt_of_le_of_ne atMost ?_
  intro same
  rw [same, coeff_leading leftShape, sameLeading, sub_self] at occurs
  exact occurs rfl

/-- Subtracting a polynomial with the same leading term lowers the leading monomial. -/
theorem leadingMonomial_sub_lt
    {left right : MultivariatePolynomial vars K}
    {leading : Term numVars K}
    {rest others : List (Term numVars K)}
    (leftShape : left.terms = leading :: rest)
    (rightShape : right.terms = leading :: others) :
    (left - right).leadingMonomial < left.leadingMonomial :=
  leadingMonomial_sub_lt_of_coeff leftShape (coeff_leading rightShape)
    (fun _ occurs => le_of_coeff_ne_zero rightShape occurs)

/-- The leading term of a product is the product of the leading terms. -/
theorem terms_mul
    {left right : MultivariatePolynomial vars K}
    {leftLeading rightLeading : Term numVars K}
    {rest others : List (Term numVars K)}
    (leftShape : left.terms = leftLeading :: rest)
    (rightShape : right.terms = rightLeading :: others) :
    ∃ more,
      (left * right).terms =
        (leftLeading.1 * rightLeading.1, leftLeading.2 * rightLeading.2) :: more := by
  have leftNonzero : left.toMvPolynomial ≠ 0 := by
    simp [toMvPolynomial_eq_zero_iff, leftShape]
  have rightNonzero : right.toMvPolynomial ≠ 0 := by
    simp [toMvPolynomial_eq_zero_iff, rightShape]
  have productNonzero : (left * right).toMvPolynomial ≠ 0 := by
    rw [toMvPolynomial_mul]
    exact mul_ne_zero leftNonzero rightNonzero
  obtain ⟨leading, more, shape⟩ := exists_leading productNonzero
  have monomials : leading.1 = leftLeading.1 * rightLeading.1 := by
    apply Monomial.toFinsupp_injective
    rw [Monomial.toFinsupp_mul, ← degree_leading shape, ← degree_leading leftShape,
      ← degree_leading rightShape, toMvPolynomial_mul,
      MonomialOrder.degree_mul leftNonzero rightNonzero]
  have coefficients : leading.2 = leftLeading.2 * rightLeading.2 := by
    rw [← leadingCoeff_leading shape, ← leadingCoeff_leading leftShape,
      ← leadingCoeff_leading rightShape, toMvPolynomial_mul,
      MonomialOrder.leadingCoeff_mul]
  exact ⟨more, shape.trans (by rw [← monomials, ← coefficients])⟩

/-- Taking the leading term away lowers the leading monomial. -/
theorem leadingMonomial_sub_leading_lt
    {working : MultivariatePolynomial vars K}
    {leading : Term numVars K}
    {rest : List (Term numVars K)}
    (shape : working.terms = leading :: rest) :
    (working - fromTerm leading.1 leading.2).leadingMonomial <
      working.leadingMonomial :=
  leadingMonomial_sub_lt shape (terms_fromTerm (leading_ne_zero shape))

/-- Subtracting the multiple of a divisor that has the leading term lowers it. -/
theorem leadingMonomial_sub_mul_lt
    {working divisor : MultivariatePolynomial vars K}
    {leading divisorLeading : Term numVars K}
    {rest others : List (Term numVars K)}
    (shape : working.terms = leading :: rest)
    (divisorShape : divisor.terms = divisorLeading :: others)
    {factor : Monomial numVars}
    (factorMonomial : factor * divisorLeading.1 = leading.1) :
    (working - fromTerm factor (leading.2 * divisorLeading.2⁻¹) * divisor).leadingMonomial <
      working.leadingMonomial := by
  have divisorNonzero := leading_ne_zero divisorShape
  have factorNonzero : leading.2 * divisorLeading.2⁻¹ ≠ 0 :=
    mul_ne_zero (leading_ne_zero shape) (inv_ne_zero divisorNonzero)
  have factorTerms :
      (fromTerm factor (leading.2 * divisorLeading.2⁻¹) :
          MultivariatePolynomial vars K).terms =
        [(factor, leading.2 * divisorLeading.2⁻¹)] :=
    terms_fromTerm factorNonzero
  obtain ⟨more, product⟩ := terms_mul factorTerms divisorShape
  rw [factorMonomial, inv_mul_cancel_right₀ divisorNonzero] at product
  exact leadingMonomial_sub_lt shape product

variable [FieldErrors K]

/--
The loop of `multivariate_div_rem`: a leading term that the divisor's leading
monomial does not divide goes to the remainder.
-/
def multivariateDivRemLoop
    (divisor : MultivariatePolynomial vars K)
    (divisorLeading : Term numVars K)
    (others : List (Term numVars K))
    (divisorShape : divisor.terms = divisorLeading :: others)
    (quotient remainder working : MultivariatePolynomial vars K) :
    Except PolyError
      (MultivariatePolynomial vars K × MultivariatePolynomial vars K) :=
  match shape : working.terms with
  | [] => .ok (quotient, remainder)
  | leading :: _ =>
      if divides : divisorLeading.1.Divides leading.1 then
        match _inverted : fieldInv divisorLeading.2 with
        | .error error => .error error
        | .ok inverse =>
            let factorTerm : MultivariatePolynomial vars K :=
              fromTerm (leading.1 / divisorLeading.1) (leading.2 * inverse)
            multivariateDivRemLoop divisor divisorLeading others divisorShape
              (quotient + factorTerm) remainder (working - factorTerm * divisor)
      else
        multivariateDivRemLoop divisor divisorLeading others divisorShape
          quotient (remainder + fromTerm leading.1 leading.2)
          (working - fromTerm leading.1 leading.2)
termination_by working.leadingMonomial
decreasing_by
  · obtain ⟨_, rfl⟩ := fieldInv_eq_ok.mp _inverted
    exact leadingMonomial_sub_mul_lt shape divisorShape
      (Monomial.div_mul_cancel divides)
  · exact leadingMonomial_sub_leading_lt shape

/-- `multivariate_div_rem`. -/
def multivariateDivRem
    (dividend divisor : MultivariatePolynomial vars K) :
    Except PolyError
      (MultivariatePolynomial vars K × MultivariatePolynomial vars K) :=
  match shape : divisor.terms with
  | [] =>
      .error
        (.logicError "poly_core::multivariate_div_rem: division by the zero polynomial")
  | divisorLeading :: others =>
      multivariateDivRemLoop divisor divisorLeading others shape 0 0 dividend

/-- Division by the zero polynomial is an error. -/
theorem multivariateDivRem_of_zero
    (dividend : MultivariatePolynomial vars K)
    {divisor : MultivariatePolynomial vars K}
    (noTerms : divisor.terms = []) :
    multivariateDivRem dividend divisor =
      .error
        (.logicError
          "poly_core::multivariate_div_rem: division by the zero polynomial") := by
  rw [multivariateDivRem]
  split
  · rfl
  · rename_i leading others shape
    cases shape.symm.trans noTerms

/-- A divisor with a leading term starts the loop. -/
theorem multivariateDivRem_of_leading
    (dividend : MultivariatePolynomial vars K)
    {divisor : MultivariatePolynomial vars K}
    {divisorLeading : Term numVars K}
    {others : List (Term numVars K)}
    (divisorShape : divisor.terms = divisorLeading :: others) :
    multivariateDivRem dividend divisor =
      multivariateDivRemLoop divisor divisorLeading others divisorShape 0 0 dividend := by
  rw [multivariateDivRem]
  split
  · rename_i noTerms
    cases noTerms.symm.trans divisorShape
  · rename_i otherLeading otherRest otherShape
    cases otherShape.symm.trans divisorShape
    rfl

/-- The loop keeps the sum and returns a remainder that cannot be reduced. -/
theorem multivariateDivRemLoop_spec
    {divisor : MultivariatePolynomial vars K}
    {divisorLeading : Term numVars K}
    {others : List (Term numVars K)}
    (divisorShape : divisor.terms = divisorLeading :: others)
    (quotient remainder working : MultivariatePolynomial vars K)
    (irreducible :
      ∀ monomial, remainder.toMvPolynomial.coeff monomial.toFinsupp ≠ 0 →
        ¬ divisorLeading.1.Divides monomial) :
    ∃ lastQuotient lastRemainder,
      multivariateDivRemLoop divisor divisorLeading others divisorShape
          quotient remainder working =
        .ok (lastQuotient, lastRemainder) ∧
      quotient.toMvPolynomial * divisor.toMvPolynomial + remainder.toMvPolynomial +
          working.toMvPolynomial =
        lastQuotient.toMvPolynomial * divisor.toMvPolynomial +
          lastRemainder.toMvPolynomial ∧
      ∀ monomial, lastRemainder.toMvPolynomial.coeff monomial.toFinsupp ≠ 0 →
        ¬ divisorLeading.1.Divides monomial := by
  fun_induction multivariateDivRemLoop divisor divisorLeading others divisorShape
      quotient remainder working with
  | case1 quotient remainder working shape =>
      have noneLeft : working.toMvPolynomial = 0 :=
        toMvPolynomial_eq_zero_iff.mpr shape
      exact ⟨quotient, remainder, rfl, by rw [noneLeft, add_zero], irreducible⟩
  | case2 quotient remainder working leading rest shape divides error inverted =>
      rw [fieldInv, if_neg (leading_ne_zero divisorShape)] at inverted
      cases inverted
  | case3 quotient remainder working leading rest shape divides inverse inverted
      factorTerm inductionHypothesis =>
      obtain ⟨lastQuotient, lastRemainder, returns, sum, reduced⟩ :=
        inductionHypothesis irreducible
      refine ⟨lastQuotient, lastRemainder, returns, ?_, reduced⟩
      rw [← sum]
      simp only [toMvPolynomial_add, toMvPolynomial_sub, toMvPolynomial_mul]
      ring
  | case4 quotient remainder working leading rest shape keeps inductionHypothesis =>
      have keptIrreducible :
          ∀ monomial,
            (remainder + fromTerm leading.1 leading.2).toMvPolynomial.coeff
              monomial.toFinsupp ≠ 0 →
            ¬ divisorLeading.1.Divides monomial := by
        intro monomial occurs
        rw [toMvPolynomial_add, toMvPolynomial_fromTerm, MvPolynomial.coeff_add,
          MvPolynomial.coeff_monomial] at occurs
        by_cases same : leading.1 = monomial
        · exact same ▸ keeps
        · refine irreducible monomial ?_
          simpa [same] using occurs
      obtain ⟨lastQuotient, lastRemainder, returns, sum, reduced⟩ :=
        inductionHypothesis keptIrreducible
      refine ⟨lastQuotient, lastRemainder, returns, ?_, reduced⟩
      rw [← sum]
      simp only [toMvPolynomial_add, toMvPolynomial_sub]
      ring

omit [FieldErrors K] in
/-- A nonzero multiple of the divisor has a monomial that can be reduced. -/
theorem eq_zero_of_dvd_of_irreducible
    {divisor remainder : MultivariatePolynomial vars K}
    {divisorLeading : Term numVars K}
    {others : List (Term numVars K)}
    (divisorShape : divisor.terms = divisorLeading :: others)
    (irreducible :
      ∀ monomial, remainder.toMvPolynomial.coeff monomial.toFinsupp ≠ 0 →
        ¬ divisorLeading.1.Divides monomial)
    (divides : divisor.toMvPolynomial ∣ remainder.toMvPolynomial) :
    remainder.toMvPolynomial = 0 := by
  by_contra isNonzero
  obtain ⟨leading, rest, shape⟩ := exists_leading isNonzero
  obtain ⟨cofactor, product⟩ := divides
  have factorsNonzero : divisor.toMvPolynomial ≠ 0 ∧ cofactor ≠ 0 :=
    mul_ne_zero_iff.mp (product ▸ isNonzero)
  have degrees :
      leading.1.toFinsupp =
        divisorLeading.1.toFinsupp + MonomialOrder.lex.degree cofactor := by
    rw [← degree_leading shape, ← degree_leading divisorShape, product,
      MonomialOrder.degree_mul factorsNonzero.1 factorsNonzero.2]
  refine irreducible leading.1 ?_ ?_
  · rw [coeff_leading shape]
    exact leading_ne_zero shape
  · intro index
    have exponents := DFunLike.congr_fun degrees index
    simp only [Monomial.toFinsupp_apply, Finsupp.add_apply] at exponents
    omega

/--
Division by a nonzero polynomial returns; what it returns adds up, and the
remainder is zero exactly when the divisor divides.
-/
theorem multivariateDivRem_spec
    (dividend : MultivariatePolynomial vars K)
    {divisor : MultivariatePolynomial vars K}
    (divisorNonzero : divisor.toMvPolynomial ≠ 0) :
    ∃ quotient remainder,
      multivariateDivRem dividend divisor = .ok (quotient, remainder) ∧
      dividend.toMvPolynomial =
        quotient.toMvPolynomial * divisor.toMvPolynomial + remainder.toMvPolynomial ∧
      (remainder.toMvPolynomial = 0 ↔
        divisor.toMvPolynomial ∣ dividend.toMvPolynomial) := by
  obtain ⟨divisorLeading, others, divisorShape⟩ := exists_leading divisorNonzero
  obtain ⟨quotient, remainder, returns, sum, irreducible⟩ :=
    multivariateDivRemLoop_spec divisorShape 0 0 dividend (by simp)
  have division :
      dividend.toMvPolynomial =
        quotient.toMvPolynomial * divisor.toMvPolynomial +
          remainder.toMvPolynomial := by
    simpa using sum
  refine ⟨quotient, remainder, ?_, division, ?_⟩
  · rw [multivariateDivRem_of_leading dividend divisorShape]
    exact returns
  · constructor
    · intro isZero
      rw [division, isZero, add_zero]
      exact dvd_mul_left _ _
    · intro divides
      refine eq_zero_of_dvd_of_irreducible divisorShape irreducible ?_
      rw [division] at divides
      exact (dvd_add_right (dvd_mul_left _ _)).mp divides

/-- What a division returned, it returned for a nonzero divisor. -/
theorem multivariateDivRem_ok
    {dividend divisor quotient remainder : MultivariatePolynomial vars K}
    (returned : multivariateDivRem dividend divisor = .ok (quotient, remainder)) :
    dividend.toMvPolynomial =
        quotient.toMvPolynomial * divisor.toMvPolynomial + remainder.toMvPolynomial ∧
      (remainder.toMvPolynomial = 0 ↔
        divisor.toMvPolynomial ∣ dividend.toMvPolynomial) := by
  by_cases divisorZero : divisor.toMvPolynomial = 0
  · rw [toMvPolynomial_eq_zero_iff] at divisorZero
    rw [multivariateDivRem_of_zero dividend divisorZero] at returned
    cases returned
  · obtain ⟨_, _, returns, spec⟩ := multivariateDivRem_spec dividend divisorZero
    rw [returns] at returned
    cases returned
    exact spec

section Univariate

variable {single : Fin 1 → Symbol}

/-- The loop of `univariate_div_rem`: as long as the degree allows. -/
def univariateDivRemLoop
    (divisor : MultivariatePolynomial single K)
    (divisorLeading : Term 1 K)
    (others : List (Term 1 K))
    (divisorShape : divisor.terms = divisorLeading :: others)
    (quotient remainder : MultivariatePolynomial single K) :
    Except PolyError
      (MultivariatePolynomial single K × MultivariatePolynomial single K) :=
  match _shape : remainder.terms with
  | [] => .ok (quotient, remainder)
  | leading :: _ =>
      if _reducible : divisorLeading.1.exponent 0 ≤ leading.1.exponent 0 then
        match _inverted : fieldInv divisorLeading.2 with
        | .error error => .error error
        | .ok inverse =>
            let factorTerm : MultivariatePolynomial single K :=
              fromTerm ⟨fun _ => leading.1.exponent 0 - divisorLeading.1.exponent 0⟩
                (leading.2 * inverse)
            univariateDivRemLoop divisor divisorLeading others divisorShape
              (quotient + factorTerm) (remainder - factorTerm * divisor)
      else
        .ok (quotient, remainder)
termination_by remainder.leadingMonomial
decreasing_by
  obtain ⟨_, rfl⟩ := fieldInv_eq_ok.mp _inverted
  refine leadingMonomial_sub_mul_lt _shape divisorShape ?_
  ext index
  rw [Subsingleton.elim index 0]
  exact Nat.sub_add_cancel _reducible

/-- `univariate_div_rem`. -/
def univariateDivRem
    (dividend divisor : MultivariatePolynomial single K) :
    Except PolyError
      (MultivariatePolynomial single K × MultivariatePolynomial single K) :=
  match shape : divisor.terms with
  | [] =>
      .error
        (.logicError "poly_core::univariate_div_rem: division by the zero polynomial")
  | divisorLeading :: others =>
      univariateDivRemLoop divisor divisorLeading others shape 0 dividend

section Rounds

variable {divisor : MultivariatePolynomial single K} {divisorLeading : Term 1 K}
  {others : List (Term 1 K)} (divisorShape : divisor.terms = divisorLeading :: others)
  (quotient : MultivariatePolynomial single K)

/-- The loop stops when no remainder is left. -/
theorem univariateDivRemLoop_of_zero
    {remainder : MultivariatePolynomial single K}
    (noTerms : remainder.terms = []) :
    univariateDivRemLoop divisor divisorLeading others divisorShape quotient remainder =
      .ok (quotient, remainder) := by
  rw [univariateDivRemLoop]
  split
  · rfl
  · rename_i leading rest shape
    cases shape.symm.trans noTerms

/-- The loop stops at a remainder of lower degree. -/
theorem univariateDivRemLoop_of_lower
    {remainder : MultivariatePolynomial single K}
    {leading : Term 1 K}
    {rest : List (Term 1 K)}
    (shape : remainder.terms = leading :: rest)
    (lower : ¬divisorLeading.1.exponent 0 ≤ leading.1.exponent 0) :
    univariateDivRemLoop divisor divisorLeading others divisorShape quotient remainder =
      .ok (quotient, remainder) := by
  rw [univariateDivRemLoop]
  split
  · rfl
  · rename_i otherLeading otherRest otherShape
    cases otherShape.symm.trans shape
    exact dif_neg lower

/-- One round of the loop. -/
theorem univariateDivRemLoop_of_reducible
    {remainder : MultivariatePolynomial single K}
    {leading : Term 1 K}
    {rest : List (Term 1 K)}
    (shape : remainder.terms = leading :: rest)
    (reducible : divisorLeading.1.exponent 0 ≤ leading.1.exponent 0)
    {inverse : K}
    (inverted : fieldInv divisorLeading.2 = .ok inverse)
    {factorTerm : MultivariatePolynomial single K}
    (isFactor :
      factorTerm =
        fromTerm ⟨fun _ => leading.1.exponent 0 - divisorLeading.1.exponent 0⟩
          (leading.2 * inverse)) :
    univariateDivRemLoop divisor divisorLeading others divisorShape quotient remainder =
      univariateDivRemLoop divisor divisorLeading others divisorShape
        (quotient + factorTerm) (remainder - factorTerm * divisor) := by
  rw [univariateDivRemLoop]
  split
  · rename_i noTerms
    cases noTerms.symm.trans shape
  · rename_i otherLeading otherRest otherShape
    cases otherShape.symm.trans shape
    rw [dif_pos reducible]
    split
    · rename_i error failed
      cases inverted.symm.trans failed
    · rename_i otherInverse otherInverted
      cases inverted.symm.trans otherInverted
      rw [isFactor]

end Rounds

/-- Division by the zero polynomial is an error. -/
theorem univariateDivRem_of_zero
    (dividend : MultivariatePolynomial single K)
    {divisor : MultivariatePolynomial single K}
    (noTerms : divisor.terms = []) :
    univariateDivRem dividend divisor =
      .error
        (.logicError
          "poly_core::univariate_div_rem: division by the zero polynomial") := by
  rw [univariateDivRem]
  split
  · rfl
  · rename_i leading others shape
    cases shape.symm.trans noTerms

/-- A divisor with a leading term starts the loop. -/
theorem univariateDivRem_of_leading
    (dividend : MultivariatePolynomial single K)
    {divisor : MultivariatePolynomial single K}
    {divisorLeading : Term 1 K}
    {others : List (Term 1 K)}
    (divisorShape : divisor.terms = divisorLeading :: others) :
    univariateDivRem dividend divisor =
      univariateDivRemLoop divisor divisorLeading others divisorShape 0 dividend := by
  rw [univariateDivRem]
  split
  · rename_i noTerms
    cases noTerms.symm.trans divisorShape
  · rename_i otherLeading otherRest otherShape
    cases otherShape.symm.trans divisorShape
    rfl

/-- The loop keeps the sum and returns a remainder of lower degree. -/
theorem univariateDivRemLoop_spec
    {divisor : MultivariatePolynomial single K}
    {divisorLeading : Term 1 K}
    {others : List (Term 1 K)}
    (divisorShape : divisor.terms = divisorLeading :: others)
    (quotient remainder : MultivariatePolynomial single K) :
    ∃ lastQuotient lastRemainder,
      univariateDivRemLoop divisor divisorLeading others divisorShape
          quotient remainder =
        .ok (lastQuotient, lastRemainder) ∧
      quotient.toMvPolynomial * divisor.toMvPolynomial + remainder.toMvPolynomial =
        lastQuotient.toMvPolynomial * divisor.toMvPolynomial +
          lastRemainder.toMvPolynomial ∧
      lastRemainder.leadingMonomial < divisor.leadingMonomial := by
  fun_induction univariateDivRemLoop divisor divisorLeading others divisorShape
      quotient remainder with
  | case1 quotient remainder shape =>
      refine ⟨quotient, remainder, rfl, rfl, ?_⟩
      rw [leadingMonomial_of_terms divisorShape, leadingMonomial, shape]
      exact WithBot.bot_lt_coe _
  | case2 quotient remainder leading rest shape reducible error inverted =>
      rw [fieldInv, if_neg (leading_ne_zero divisorShape)] at inverted
      cases inverted
  | case3 quotient remainder leading rest shape reducible inverse inverted
      factorTerm inductionHypothesis =>
      obtain ⟨lastQuotient, lastRemainder, returns, sum, lower⟩ := inductionHypothesis
      refine ⟨lastQuotient, lastRemainder, returns, ?_, lower⟩
      rw [← sum]
      simp only [toMvPolynomial_add, toMvPolynomial_sub, toMvPolynomial_mul]
      ring
  | case4 quotient remainder leading rest shape lower =>
      refine ⟨quotient, remainder, rfl, rfl, ?_⟩
      rw [leadingMonomial_of_terms divisorShape, leadingMonomial_of_terms shape]
      refine WithBot.coe_lt_coe.mpr ⟨0, ?_, not_le.mp lower⟩
      intro earlier before
      exact absurd before (Fin.not_lt_zero earlier)

/-- Univariate division by a nonzero polynomial returns a remainder of lower degree. -/
theorem univariateDivRem_spec
    (dividend : MultivariatePolynomial single K)
    {divisor : MultivariatePolynomial single K}
    (divisorNonzero : divisor.toMvPolynomial ≠ 0) :
    ∃ quotient remainder,
      univariateDivRem dividend divisor = .ok (quotient, remainder) ∧
      dividend.toMvPolynomial =
        quotient.toMvPolynomial * divisor.toMvPolynomial + remainder.toMvPolynomial ∧
      remainder.leadingMonomial < divisor.leadingMonomial := by
  obtain ⟨divisorLeading, others, divisorShape⟩ := exists_leading divisorNonzero
  obtain ⟨quotient, remainder, returns, sum, lower⟩ :=
    univariateDivRemLoop_spec divisorShape 0 dividend
  refine ⟨quotient, remainder, ?_, by simpa using sum, lower⟩
  rw [univariateDivRem_of_leading dividend divisorShape]
  exact returns

/-- What univariate division returns adds up with a remainder of lower degree. -/
theorem univariateDivRem_ok
    {dividend divisor quotient remainder : MultivariatePolynomial single K}
    (returned : univariateDivRem dividend divisor = .ok (quotient, remainder)) :
    dividend.toMvPolynomial =
        quotient.toMvPolynomial * divisor.toMvPolynomial + remainder.toMvPolynomial ∧
      remainder.leadingMonomial < divisor.leadingMonomial := by
  by_cases divisorZero : divisor.toMvPolynomial = 0
  · rw [toMvPolynomial_eq_zero_iff] at divisorZero
    rw [univariateDivRem_of_zero dividend divisorZero] at returned
    cases returned
  · obtain ⟨_, _, returns, spec⟩ := univariateDivRem_spec dividend divisorZero
    rw [returns] at returned
    cases returned
    exact spec

/-- The loop of `univariate_gcd`. -/
def univariateGcdLoop
    (left right : MultivariatePolynomial single K) :
    Except PolyError (MultivariatePolynomial single K) :=
  if right.isZero then
    .ok left
  else
    match _divided : univariateDivRem left right with
    | .error error => .error error
    | .ok (_, remainder) => univariateGcdLoop right remainder
termination_by right.leadingMonomial
decreasing_by exact (univariateDivRem_ok _divided).2

/-- `univariate_gcd`: the last nonzero remainder, made monic. -/
def univariateGcd
    (left right : MultivariatePolynomial single K) :
    Except PolyError (MultivariatePolynomial single K) := do
  let last ← univariateGcdLoop left right
  match last.terms with
  | [] => .ok last
  | leading :: _ => do
      let inverse ← fieldInv leading.2
      .ok (last * fromTerm 1 inverse)

/-- What the algorithms must return: a gcd that is monic unless it is zero. -/
structure IsMonicGcd
    {numVars : ℕ}
    (left right common : MvPolynomial (Fin numVars) K) :
    Prop extends IsGcd left right common where
  monic : common ≠ 0 → MonomialOrder.lex.Monic common

omit [FieldErrors K] in
/-- Scaling by the inverse leading coefficient gives a monic associate. -/
theorem scale_leading_inv
    {poly : MultivariatePolynomial vars K}
    {leading : Term numVars K}
    {rest : List (Term numVars K)}
    (shape : poly.terms = leading :: rest) :
    MonomialOrder.lex.Monic
        (poly * fromTerm 1 leading.2⁻¹ : MultivariatePolynomial vars K).toMvPolynomial ∧
      (poly * fromTerm 1 leading.2⁻¹ : MultivariatePolynomial vars K).toMvPolynomial =
        poly.toMvPolynomial * MvPolynomial.C leading.2⁻¹ := by
  have leadingNonzero := leading_ne_zero shape
  have scaled :
      (poly * fromTerm 1 leading.2⁻¹ : MultivariatePolynomial vars K).toMvPolynomial =
        poly.toMvPolynomial * MvPolynomial.C leading.2⁻¹ := by
    rw [toMvPolynomial_mul]
    exact congrArg (poly.toMvPolynomial * ·) (toMvPolynomial_constant leading.2⁻¹)
  refine ⟨?_, scaled⟩
  rw [MonomialOrder.Monic, scaled, MonomialOrder.leadingCoeff_mul,
    leadingCoeff_leading shape, MonomialOrder.leadingCoeff_C]
  exact mul_inv_cancel₀ leadingNonzero

omit [FieldErrors K] in
/-- A gcd scaled by the inverse of its leading coefficient is the monic gcd. -/
theorem isMonicGcd_scale
    {left right : MvPolynomial (Fin numVars) K}
    {poly : MultivariatePolynomial vars K}
    {leading : Term numVars K}
    {rest : List (Term numVars K)}
    (shape : poly.terms = leading :: rest)
    (isGcd : IsGcd left right poly.toMvPolynomial) :
    IsMonicGcd left right
      (poly * fromTerm 1 leading.2⁻¹ : MultivariatePolynomial vars K).toMvPolynomial := by
  obtain ⟨monic, scaled⟩ := scale_leading_inv shape
  have unscaled :
      poly.toMvPolynomial =
        (poly * fromTerm 1 leading.2⁻¹ : MultivariatePolynomial vars K).toMvPolynomial *
          MvPolynomial.C leading.2 := by
    rw [scaled, mul_assoc, ← map_mul, inv_mul_cancel₀ (leading_ne_zero shape), map_one,
      mul_one]
  exact ⟨isGcd.of_dvd_dvd ⟨_, scaled⟩ ⟨_, unscaled⟩, fun _ => monic⟩

/-- The loop returns a gcd that is a combination of the two polynomials. -/
theorem univariateGcdLoop_spec
    (left right : MultivariatePolynomial single K) :
    ∃ last,
      univariateGcdLoop left right = .ok last ∧
      IsGcd left.toMvPolynomial right.toMvPolynomial last.toMvPolynomial ∧
      ∃ leftFactor rightFactor,
        last.toMvPolynomial =
          leftFactor * left.toMvPolynomial + rightFactor * right.toMvPolynomial := by
  fun_induction univariateGcdLoop left right with
  | case1 left right isZero =>
      refine ⟨left, rfl, ?_, 1, 0, by ring⟩
      rw [isZero_iff.mp isZero]
      exact IsGcd.zero_right _
  | case2 left right isNonzero error divided =>
      have rightNonzero : right.toMvPolynomial ≠ 0 :=
        fun isZero => isNonzero (isZero_iff.mpr isZero)
      obtain ⟨_, _, returns, _⟩ := univariateDivRem_spec left rightNonzero
      rw [returns] at divided
      cases divided
  | case3 left right isNonzero quotient remainder divided inductionHypothesis =>
      obtain ⟨last, returns, isGcd, leftFactor, rightFactor, combination⟩ :=
        inductionHypothesis
      have division := (univariateDivRem_ok divided).1
      refine ⟨last, returns, IsGcd.of_remainder division isGcd,
        rightFactor, leftFactor - rightFactor * quotient.toMvPolynomial, ?_⟩
      rw [combination, division]
      ring

/-- `univariate_gcd` returns the monic gcd, a combination of the two polynomials. -/
theorem univariateGcd_spec
    (left right : MultivariatePolynomial single K) :
    ∃ common,
      univariateGcd left right = .ok common ∧
      IsMonicGcd left.toMvPolynomial right.toMvPolynomial common.toMvPolynomial ∧
      ∃ leftFactor rightFactor,
        common.toMvPolynomial =
          leftFactor * left.toMvPolynomial + rightFactor * right.toMvPolynomial := by
  obtain ⟨last, returns, isGcd, leftFactor, rightFactor, combination⟩ :=
    univariateGcdLoop_spec left right
  cases shape : last.terms with
  | nil =>
      have lastZero : last.toMvPolynomial = 0 := toMvPolynomial_eq_zero_iff.mpr shape
      refine ⟨last, ?_, ⟨isGcd, fun isNonzero => absurd lastZero isNonzero⟩,
        leftFactor, rightFactor, combination⟩
      rw [univariateGcd, returns, ok_bind, shape]
  | cons leading rest =>
      have scaled := (scale_leading_inv shape).2
      refine ⟨last * fromTerm 1 leading.2⁻¹, ?_, isMonicGcd_scale shape isGcd,
        leftFactor * MvPolynomial.C leading.2⁻¹,
        rightFactor * MvPolynomial.C leading.2⁻¹, ?_⟩
      · rw [univariateGcd, returns, ok_bind, shape]
        simp only [fieldInv, if_neg (leading_ne_zero shape), ok_bind]
      · rw [scaled, combination]
        ring

end Univariate

end MultivariatePolynomial

end PolyCore
