import Stocas.Poly.Division
import Stocas.Poly.MachinePolynomial

namespace PolyCore

open SymbolTable (Symbol)
open WrappedExponents (Below)

/-!
# Division of polynomials with 32-bit exponents

A multiple of the divisor that cancels a leading term never wraps that term, so the
loop of a division still ends.  When the divisor divides the dividend no product of
the loop wraps, and the quotient is exact.
-/

theorem exponentModulus_pos : 0 < exponentModulus :=
  Nat.two_pow_pos 32

namespace Monomial

variable {numVars : ℕ}

theorem fits_div
    {left : Monomial numVars}
    (fits : left.Fits)
    (right : Monomial numVars) :
    (left / right).Fits :=
  fun index => lt_of_le_of_lt (Nat.sub_le _ _) (fits index)

/-- Multiplying a lower monomial stays lower, wrapped or not. -/
theorem wrappedMul_lt
    {factor lower leading product : Monomial numVars}
    (isProduct : factor * leading = product)
    (fits : product.Fits)
    (less : lower < leading) :
    factor.wrappedMul lower < product := by
  obtain ⟨index, earlierSame, lessHere⟩ := less
  have exponents : ∀ other,
      factor.exponent other + leading.exponent other = product.exponent other := by
    intro other
    rw [← isProduct, exponent_mul]
  refine ⟨index, ?_, ?_⟩
  · intro earlier before
    simp only [wrappedMul]
    rw [earlierSame earlier before, exponents]
    exact Nat.mod_eq_of_lt (fits earlier)
  · simp only [wrappedMul]
    have here := exponents index
    exact lt_of_le_of_lt (Nat.mod_le _ _) (by omega)

end Monomial

namespace MachinePolynomial

open MultivariatePolynomial
  (coeff_leading degree_leading exists_leading exists_of_coeff_ne_zero leading_ne_zero
    termsValue termsValue_cons terms_fromTerm toMvPolynomial_eq_zero_iff
    toMvPolynomial_fromTerm toMvPolynomial_ofRaw)

variable {numVars : ℕ} {vars : Fin numVars → Symbol} {K : Type}

section Products

variable [CommRing K] [DecidableEq K]

@[simp] theorem toMvPolynomial_add
    (left right : MachinePolynomial vars K) :
    (left + right).toMvPolynomial = left.toMvPolynomial + right.toMvPolynomial :=
  MultivariatePolynomial.toMvPolynomial_add _ _

@[simp] theorem toMvPolynomial_sub
    (left right : MachinePolynomial vars K) :
    (left - right).toMvPolynomial = left.toMvPolynomial - right.toMvPolynomial :=
  MultivariatePolynomial.toMvPolynomial_sub _ _

omit [DecidableEq K] in
@[simp] theorem toMvPolynomial_neg
    (poly : MachinePolynomial vars K) :
    (-poly).toMvPolynomial = -poly.toMvPolynomial :=
  MultivariatePolynomial.toMvPolynomial_neg _

@[simp] theorem toMvPolynomial_constant
    (value : K) :
    (constant value : MachinePolynomial vars K).toMvPolynomial = MvPolynomial.C value :=
  MultivariatePolynomial.toMvPolynomial_constant value

/-- A product with exponents in range is the product. -/
theorem toMvPolynomial_mul
    {left right : MachinePolynomial vars K}
    (below : Below exponentModulus (left.toMvPolynomial * right.toMvPolynomial)) :
    (left * right).toMvPolynomial = left.toMvPolynomial * right.toMvPolynomial := by
  refine WrappedExponents.eq_of_wrap_eq (left * right).fits.below below ?_
  rw [map_mul]
  exact wrapped_mul left right

/-- Multiplying by a constant does not wrap. -/
theorem toMvPolynomial_mul_constant
    (poly : MachinePolynomial vars K)
    (value : K) :
    (poly * constant value).toMvPolynomial = poly.toMvPolynomial * MvPolynomial.C value := by
  rw [← toMvPolynomial_constant value]
  apply toMvPolynomial_mul
  intro exponents occurs index
  rw [toMvPolynomial_constant, mul_comm, MvPolynomial.coeff_C_mul] at occurs
  exact poly.fits.below exponents (right_ne_zero_of_mul occurs) index

/-- The product with a single term, wrapped term by term. -/
theorem toMvPolynomial_fromTerm_mul
    {factor : Monomial numVars}
    (fits : factor.Fits)
    {coefficient : K}
    (isNonzero : coefficient ≠ 0)
    (poly : MachinePolynomial vars K) :
    (fromTerm factor fits coefficient * poly).toMvPolynomial =
      termsValue
        (poly.terms.map fun other =>
          (factor.wrappedMul other.1, coefficient * other.2)) := by
  have factorTerms :
      (MultivariatePolynomial.fromTerm factor coefficient :
        MultivariatePolynomial vars K).terms = [(factor, coefficient)] :=
    terms_fromTerm isNonzero
  have product :
      (fromTerm factor fits coefficient * poly).toMvPolynomial =
        ((MultivariatePolynomial.fromTerm factor coefficient).wrappedMul
          poly.toMultivariatePolynomial).toMvPolynomial :=
    rfl
  rw [product, MultivariatePolynomial.wrappedMul]
  split_ifs with someZero
  · have noTerms : poly.terms = [] := by
      simpa [MultivariatePolynomial.isZero, factorTerms] using someZero
    rw [noTerms]
    rfl
  · rw [toMvPolynomial_ofRaw, factorTerms, List.flatMap_singleton]

end Products

section Division

variable [Field K] [DecidableEq K] [FieldErrors K]

omit [FieldErrors K] in
/-- Subtracting the multiple of a divisor that has the leading term lowers it. -/
theorem leadingMonomial_sub_mul_lt
    {working divisor : MachinePolynomial vars K}
    {leading divisorLeading : Term numVars K}
    {rest others : List (Term numVars K)}
    (shape : working.terms = leading :: rest)
    (divisorShape : divisor.terms = divisorLeading :: others)
    {factor : Monomial numVars}
    (fits : factor.Fits)
    (factorMonomial : factor * divisorLeading.1 = leading.1) :
    (working -
        fromTerm factor fits (leading.2 * divisorLeading.2⁻¹) * divisor).leadingMonomial <
      working.leadingMonomial := by
  have divisorNonzero := leading_ne_zero divisorShape
  have factorNonzero : leading.2 * divisorLeading.2⁻¹ ≠ 0 :=
    mul_ne_zero (leading_ne_zero shape) (inv_ne_zero divisorNonzero)
  have leadingFits : leading.1.Fits := working.fits leading (by simp [shape])
  have leadingProduct : factor.wrappedMul divisorLeading.1 = leading.1 := by
    rw [← factorMonomial]
    apply Monomial.wrappedMul_eq_mul
    intro index
    rw [← Monomial.exponent_mul, factorMonomial]
    exact leadingFits index
  have product := toMvPolynomial_fromTerm_mul fits factorNonzero divisor
  rw [divisorShape, List.map_cons, termsValue_cons, leadingProduct,
    inv_mul_cancel_right₀ divisorNonzero] at product
  have below :
      ∀ monomial,
        (termsValue (others.map fun other =>
          (factor.wrappedMul other.1, leading.2 * divisorLeading.2⁻¹ * other.2))).coeff
            monomial.toFinsupp ≠ 0 →
          monomial < leading.1 := by
    intro monomial occurs
    obtain ⟨term, member, same⟩ := exists_of_coeff_ne_zero occurs
    obtain ⟨other, otherMember, rfl⟩ := List.mem_map.mp member
    have descending := List.pairwise_cons.mp (divisorShape ▸ divisor.descending)
    rw [← same]
    exact Monomial.wrappedMul_lt factorMonomial leadingFits
      (descending.1 other otherMember)
  refine MultivariatePolynomial.leadingMonomial_sub_lt_of_coeff shape ?_ ?_
  · rw [product, MvPolynomial.coeff_add, MvPolynomial.coeff_monomial, if_pos rfl,
      add_eq_left]
    by_contra occurs
    exact lt_irrefl leading.1 (below leading.1 occurs)
  · intro monomial occurs
    rw [product, MvPolynomial.coeff_add, MvPolynomial.coeff_monomial] at occurs
    split_ifs at occurs with same
    · exact le_of_eq (Monomial.toFinsupp_injective same).symm
    · rw [zero_add] at occurs
      exact (below monomial occurs).le

/-- The loop of `multivariate_div_rem`. -/
def multivariateDivRemLoop
    (divisor : MachinePolynomial vars K)
    (divisorLeading : Term numVars K)
    (others : List (Term numVars K))
    (divisorShape : divisor.terms = divisorLeading :: others)
    (quotient remainder working : MachinePolynomial vars K) :
    Except PolyError (MachinePolynomial vars K × MachinePolynomial vars K) :=
  match shape : working.terms with
  | [] => .ok (quotient, remainder)
  | leading :: _ =>
      have fits : leading.1.Fits := working.fits leading (by simp [shape])
      if divides : divisorLeading.1.Divides leading.1 then
        match _inverted : fieldInv divisorLeading.2 with
        | .error error => .error error
        | .ok inverse =>
            let factorTerm : MachinePolynomial vars K :=
              fromTerm (leading.1 / divisorLeading.1) (Monomial.fits_div fits _)
                (leading.2 * inverse)
            multivariateDivRemLoop divisor divisorLeading others divisorShape
              (quotient + factorTerm) remainder (working - factorTerm * divisor)
      else
        multivariateDivRemLoop divisor divisorLeading others divisorShape
          quotient (remainder + fromTerm leading.1 fits leading.2)
          (working - fromTerm leading.1 fits leading.2)
termination_by working.leadingMonomial
decreasing_by
  · obtain ⟨_, rfl⟩ := fieldInv_eq_ok.mp _inverted
    exact leadingMonomial_sub_mul_lt shape divisorShape _
      (Monomial.div_mul_cancel divides)
  · exact MultivariatePolynomial.leadingMonomial_sub_leading_lt shape

/-- `multivariate_div_rem`. -/
def multivariateDivRem
    (dividend divisor : MachinePolynomial vars K) :
    Except PolyError (MachinePolynomial vars K × MachinePolynomial vars K) :=
  match shape : divisor.terms with
  | [] =>
      .error
        (.logicError "poly_core::multivariate_div_rem: division by the zero polynomial")
  | divisorLeading :: others =>
      multivariateDivRemLoop divisor divisorLeading others shape 0 0 dividend

/-- A nonzero divisor starts the loop. -/
theorem multivariateDivRem_eq_loop
    {dividend divisor : MachinePolynomial vars K}
    {divisorLeading : Term numVars K}
    {others : List (Term numVars K)}
    (divisorShape : divisor.terms = divisorLeading :: others) :
    multivariateDivRem dividend divisor =
      multivariateDivRemLoop divisor divisorLeading others divisorShape 0 0 dividend := by
  rw [multivariateDivRem]
  split
  · rename_i noTerms
    cases noTerms.symm.trans divisorShape
  · rename_i otherLeading otherRest otherShape
    cases otherShape.symm.trans divisorShape
    rfl

omit [FieldErrors K] in
/-- Dividing a multiple, the next product of the loop does not wrap. -/
theorem exact_step
    {working divisor : MachinePolynomial vars K}
    {leading divisorLeading : Term numVars K}
    {rest others : List (Term numVars K)}
    (shape : working.terms = leading :: rest)
    (divisorShape : divisor.terms = divisorLeading :: others)
    (divides : divisor.toMvPolynomial ∣ working.toMvPolynomial)
    (fits : (leading.1 / divisorLeading.1).Fits)
    (coefficient : K) :
    divisorLeading.1.Divides leading.1 ∧
      (fromTerm (leading.1 / divisorLeading.1) fits coefficient * divisor).toMvPolynomial =
        MvPolynomial.monomial (leading.1 / divisorLeading.1).toFinsupp coefficient *
          divisor.toMvPolynomial := by
  obtain ⟨cofactor, product⟩ := divides
  have workingNonzero : working.toMvPolynomial ≠ 0 := by
    simp [toMvPolynomial_eq_zero_iff, shape]
  have nonzero : divisor.toMvPolynomial ≠ 0 ∧ cofactor ≠ 0 :=
    mul_ne_zero_iff.mp (product ▸ workingNonzero)
  have degrees :
      leading.1.toFinsupp =
        divisorLeading.1.toFinsupp + MonomialOrder.lex.degree cofactor := by
    rw [← degree_leading shape, ← degree_leading divisorShape, product,
      MonomialOrder.degree_mul nonzero.1 nonzero.2]
  have exponents : ∀ index,
      leading.1.exponent index =
        divisorLeading.1.exponent index + MonomialOrder.lex.degree cofactor index :=
    fun index => DFunLike.congr_fun degrees index
  refine ⟨fun index => by rw [exponents]; exact Nat.le_add_right _ _, ?_⟩
  have factorTerm :
      (fromTerm (leading.1 / divisorLeading.1) fits coefficient :
        MachinePolynomial vars K).toMvPolynomial =
        MvPolynomial.monomial (leading.1 / divisorLeading.1).toFinsupp coefficient :=
    toMvPolynomial_fromTerm _ _
  rw [← factorTerm]
  apply toMvPolynomial_mul
  rw [factorTerm]
  have below : Below exponentModulus (cofactor * divisor.toMvPolynomial) := by
    rw [mul_comm, ← product]
    exact working.fits.below
  refine below.mul_of_degreeOf_le exponentModulus_pos nonzero.2 ?_
  intro index
  rw [MvPolynomial.degreeOf_le_iff]
  intro occurring member
  have isFactor := Finset.mem_singleton.mp (MvPolynomial.support_monomial_subset member)
  have atMost :=
    MvPolynomial.monomial_le_degreeOf index
      (MonomialOrder.lex.degree_mem_support nonzero.2)
  rw [isFactor, Monomial.toFinsupp_apply, Monomial.exponent_div, exponents,
    Nat.add_sub_cancel_left]
  exact atMost

/-- Dividing a multiple leaves the remainder alone and collects the quotient. -/
theorem multivariateDivRemLoop_exact
    {divisor : MachinePolynomial vars K}
    {divisorLeading : Term numVars K}
    {others : List (Term numVars K)}
    (divisorShape : divisor.terms = divisorLeading :: others)
    (quotient remainder working : MachinePolynomial vars K)
    (divides : divisor.toMvPolynomial ∣ working.toMvPolynomial) :
    ∃ lastQuotient,
      multivariateDivRemLoop divisor divisorLeading others divisorShape
          quotient remainder working =
        .ok (lastQuotient, remainder) ∧
      lastQuotient.toMvPolynomial * divisor.toMvPolynomial =
        quotient.toMvPolynomial * divisor.toMvPolynomial + working.toMvPolynomial := by
  fun_induction multivariateDivRemLoop divisor divisorLeading others divisorShape
      quotient remainder working with
  | case1 quotient remainder working shape =>
      have noneLeft : working.toMvPolynomial = 0 :=
        toMvPolynomial_eq_zero_iff.mpr shape
      exact ⟨quotient, rfl, by rw [noneLeft, add_zero]⟩
  | case2 quotient remainder working leading rest shape fits reducible error inverted =>
      rw [fieldInv, if_neg (leading_ne_zero divisorShape)] at inverted
      cases inverted
  | case3 quotient remainder working leading rest shape fits reducible inverse inverted
      factorTerm inductionHypothesis =>
      have product :=
        (exact_step shape divisorShape divides (Monomial.fits_div fits _)
          (leading.2 * inverse)).2
      have isTerm :
          factorTerm.toMvPolynomial =
            MvPolynomial.monomial (leading.1 / divisorLeading.1).toFinsupp
              (leading.2 * inverse) :=
        toMvPolynomial_fromTerm _ _
      have next :
          (working - factorTerm * divisor).toMvPolynomial =
            working.toMvPolynomial -
              factorTerm.toMvPolynomial * divisor.toMvPolynomial := by
        rw [toMvPolynomial_sub, product, ← isTerm]
      obtain ⟨lastQuotient, returns, collected⟩ :=
        inductionHypothesis (by rw [next]; exact dvd_sub divides (dvd_mul_left _ _))
      refine ⟨lastQuotient, returns, ?_⟩
      rw [collected, next, toMvPolynomial_add]
      ring
  | case4 quotient remainder working leading rest shape fits keeps inductionHypothesis =>
      exact (keeps (exact_step shape divisorShape divides (Monomial.fits_div fits _) 1).1).elim

/-- Dividing a multiple of a nonzero polynomial returns the exact quotient. -/
theorem multivariateDivRem_exact
    {dividend divisor : MachinePolynomial vars K}
    (divisorNonzero : divisor.toMvPolynomial ≠ 0)
    (divides : divisor.toMvPolynomial ∣ dividend.toMvPolynomial) :
    ∃ quotient,
      multivariateDivRem dividend divisor = .ok (quotient, 0) ∧
      quotient.toMvPolynomial * divisor.toMvPolynomial = dividend.toMvPolynomial := by
  obtain ⟨divisorLeading, others, divisorShape⟩ := exists_leading divisorNonzero
  obtain ⟨quotient, returns, collected⟩ :=
    multivariateDivRemLoop_exact divisorShape 0 0 dividend divides
  refine ⟨quotient, ?_, ?_⟩
  · rw [multivariateDivRem_eq_loop divisorShape, returns]
  · rw [collected]
    have isZero : (0 : MachinePolynomial vars K).toMvPolynomial = 0 := rfl
    rw [isZero, zero_mul, zero_add]

end Division

end MachinePolynomial

end PolyCore
