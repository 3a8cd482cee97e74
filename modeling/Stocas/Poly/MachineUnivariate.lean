import Stocas.Poly.MachineDivision
import Stocas.Poly.RationalGcd
import Stocas.Poly.Univariate

namespace PolyCore

open GreatestCommonDivisor (IsGcd)
open MultivariatePolynomial (oneVariable)
open Outcome (ok_bind)
open SymbolTable (Symbol)

/-!
# The univariate algorithms with 32-bit exponents

A multiple of the divisor that cancels a leading term has no exponent above that term, so
no product of the algorithms wraps.  They return what they return for exponents without a
bound, and their results are quotient, remainder and gcd of the univariate polynomials.
-/

namespace MachinePolynomial

variable {single : Fin 1 → Symbol} {K : Type} [Field K] [DecidableEq K]

omit [DecidableEq K] in
/-- The exponent that cancels a leading term is in range. -/
theorem fits_factorDegree
    {remainder : MachinePolynomial single K}
    {leading : Term 1 K}
    {rest : List (Term 1 K)}
    (shape : remainder.terms = leading :: rest)
    (degree : ℕ) :
    (⟨fun _ => leading.1.exponent 0 - degree⟩ : Monomial 1).Fits := by
  have leadingFits := remainder.fits leading (by simp [shape])
  exact fun _ => lt_of_le_of_lt (Nat.sub_le _ _) (leadingFits 0)

/-- What division with remainder must return. -/
structure IsDivision
    (dividend divisor quotient remainder : MachinePolynomial single K) :
    Prop where
  sum : dividend = quotient * divisor + remainder
  sumOfPolynomials :
    dividend.toPolynomial =
      quotient.toPolynomial * divisor.toPolynomial + remainder.toPolynomial
  lower :
    remainder.isZero = true ∨ remainder.toPolynomial.degree < divisor.toPolynomial.degree

omit [DecidableEq K] in
/-- What a gcd algorithm must return. -/
structure IsMonicGcd
    (left right common : MachinePolynomial single K) :
    Prop where
  isGcd : IsGcd left.toPolynomial right.toPolynomial common.toPolynomial
  monic : common.isZero = false → common.toPolynomial.Monic
  isZero_iff : common.isZero = true ↔ left.isZero = true ∧ right.isZero = true

section Algorithms

variable [FieldErrors K]

/-- The loop of `univariate_div_rem`: as long as the degree allows. -/
def univariateDivRemLoop
    (divisor : MachinePolynomial single K)
    (divisorLeading : Term 1 K)
    (others : List (Term 1 K))
    (divisorShape : divisor.terms = divisorLeading :: others)
    (quotient remainder : MachinePolynomial single K) :
    Except PolyError (MachinePolynomial single K × MachinePolynomial single K) :=
  match shape : remainder.terms with
  | [] => .ok (quotient, remainder)
  | leading :: _ =>
      if _reducible : divisorLeading.1.exponent 0 ≤ leading.1.exponent 0 then
        match _inverted : fieldInv divisorLeading.2 with
        | .error error => .error error
        | .ok inverse =>
            let factorTerm : MachinePolynomial single K :=
              fromTerm ⟨fun _ => leading.1.exponent 0 - divisorLeading.1.exponent 0⟩
                (fits_factorDegree shape _) (leading.2 * inverse)
            univariateDivRemLoop divisor divisorLeading others divisorShape
              (quotient + factorTerm) (remainder - factorTerm * divisor)
      else
        .ok (quotient, remainder)
termination_by remainder.leadingMonomial
decreasing_by
  obtain ⟨_, rfl⟩ := fieldInv_eq_ok.mp _inverted
  refine leadingMonomial_sub_mul_lt shape divisorShape _ ?_
  ext index
  rw [Subsingleton.elim index 0]
  exact Nat.sub_add_cancel _reducible

/-- `univariate_div_rem`. -/
def univariateDivRem
    (dividend divisor : MachinePolynomial single K) :
    Except PolyError (MachinePolynomial single K × MachinePolynomial single K) :=
  match shape : divisor.terms with
  | [] =>
      .error
        (.logicError "poly_core::univariate_div_rem: division by the zero polynomial")
  | divisorLeading :: others =>
      univariateDivRemLoop divisor divisorLeading others shape 0 dividend

omit [FieldErrors K] in
/-- A multiple that cancels a leading term is the multiple without a bound. -/
theorem factorTerm_mul
    {remainder divisor : MachinePolynomial single K}
    {leading divisorLeading : Term 1 K}
    {rest others : List (Term 1 K)}
    (shape : remainder.terms = leading :: rest)
    (divisorShape : divisor.terms = divisorLeading :: others)
    (reducible : divisorLeading.1.exponent 0 ≤ leading.1.exponent 0)
    (fits :
      (⟨fun _ => leading.1.exponent 0 - divisorLeading.1.exponent 0⟩ : Monomial 1).Fits)
    (coefficient : K) :
    (fromTerm _ fits coefficient * divisor).toMultivariatePolynomial =
      MultivariatePolynomial.fromTerm
          ⟨fun _ => leading.1.exponent 0 - divisorLeading.1.exponent 0⟩ coefficient *
        divisor.toMultivariatePolynomial := by
  apply MultivariatePolynomial.wrappedMul_eq_mul
  intro one oneMember other otherMember index
  have isFactor : one.1 = ⟨fun _ => leading.1.exponent 0 - divisorLeading.1.exponent 0⟩ := by
    change one ∈ (MultivariatePolynomial.fromTerm _ coefficient).terms at oneMember
    rw [MultivariatePolynomial.fromTerm] at oneMember
    split at oneMember
    · cases oneMember
    · rw [List.mem_singleton.mp oneMember]
  have atMost : other.1.exponent 0 ≤ divisorLeading.1.exponent 0 := by
    rw [divisorShape] at otherMember
    rcases List.mem_cons.mp otherMember with rfl | inOthers
    · exact le_refl _
    · have descending := List.pairwise_cons.mp (divisorShape ▸ divisor.descending)
      exact (Monomial.lt_iff_exponent.mp (descending.1 other inOthers)).le
  have leadingFits : leading.1.exponent 0 < exponentModulus :=
    remainder.fits leading (by simp [shape]) 0
  rw [isFactor, Subsingleton.elim index 0]
  simp only
  omega

/-- The results without their bounds on exponents. -/
def unbounded
    (results : MachinePolynomial single K × MachinePolynomial single K) :
    MultivariatePolynomial single K × MultivariatePolynomial single K :=
  (results.1.toMultivariatePolynomial, results.2.toMultivariatePolynomial)

/-- The loop of a division returns what it returns without a bound. -/
theorem univariateDivRemLoop_unbounded
    {divisor : MachinePolynomial single K}
    {divisorLeading : Term 1 K}
    {others : List (Term 1 K)}
    (divisorShape : divisor.terms = divisorLeading :: others)
    (quotient remainder : MachinePolynomial single K) :
    MultivariatePolynomial.univariateDivRemLoop divisor.toMultivariatePolynomial
        divisorLeading others divisorShape quotient.toMultivariatePolynomial
        remainder.toMultivariatePolynomial =
      (univariateDivRemLoop divisor divisorLeading others divisorShape
        quotient remainder).map unbounded := by
  fun_induction univariateDivRemLoop divisor divisorLeading others divisorShape
      quotient remainder with
  | case1 quotient remainder shape =>
      exact MultivariatePolynomial.univariateDivRemLoop_of_zero divisorShape _ shape
  | case2 quotient remainder leading rest shape reducible error inverted =>
      rw [fieldInv, if_neg (MultivariatePolynomial.leading_ne_zero divisorShape)] at inverted
      cases inverted
  | case3 quotient remainder leading rest shape reducible inverse inverted
      factorTerm inductionHypothesis =>
      have product := factorTerm_mul shape divisorShape reducible
        (fits_factorDegree shape _) (leading.2 * inverse)
      rw [MultivariatePolynomial.univariateDivRemLoop_of_reducible divisorShape _ shape
        reducible inverted rfl, ← inductionHypothesis, ← product]
      rfl
  | case4 quotient remainder leading rest shape lower =>
      exact MultivariatePolynomial.univariateDivRemLoop_of_lower divisorShape _ shape lower

/-- A division returns what it returns without a bound. -/
theorem univariateDivRem_unbounded
    (dividend divisor : MachinePolynomial single K) :
    MultivariatePolynomial.univariateDivRem dividend.toMultivariatePolynomial
        divisor.toMultivariatePolynomial =
      (univariateDivRem dividend divisor).map unbounded := by
  rw [univariateDivRem]
  split
  · rename_i noTerms
    exact MultivariatePolynomial.univariateDivRem_of_zero _ noTerms
  · rename_i leading others shape
    rw [MultivariatePolynomial.univariateDivRem_of_leading _ shape]
    exact univariateDivRemLoop_unbounded shape 0 dividend

/-- A division that returns has a result without a bound. -/
theorem univariateDivRem_ok
    {dividend divisor quotient remainder : MachinePolynomial single K}
    (returned : univariateDivRem dividend divisor = .ok (quotient, remainder)) :
    MultivariatePolynomial.univariateDivRem dividend.toMultivariatePolynomial
        divisor.toMultivariatePolynomial =
      .ok (quotient.toMultivariatePolynomial, remainder.toMultivariatePolynomial) := by
  rw [univariateDivRem_unbounded, returned]
  rfl

/-- The loop of `univariate_gcd`. -/
def univariateGcdLoop
    (left right : MachinePolynomial single K) :
    Except PolyError (MachinePolynomial single K) :=
  if right.isZero then
    .ok left
  else
    match _divided : univariateDivRem left right with
    | .error error => .error error
    | .ok (_, remainder) => univariateGcdLoop right remainder
termination_by right.leadingMonomial
decreasing_by
  exact (MultivariatePolynomial.univariateDivRem_ok (univariateDivRem_ok _divided)).2

/-- `univariate_gcd`: the last nonzero remainder, made monic. -/
def univariateGcd
    (left right : MachinePolynomial single K) :
    Except PolyError (MachinePolynomial single K) := do
  let last ← univariateGcdLoop left right
  match last.terms with
  | [] => .ok last
  | leading :: _ => do
      let inverse ← fieldInv leading.2
      .ok (last * fromTerm 1 Monomial.fits_one inverse)

/-- The loop of the Euclidean algorithm returns what it returns without a bound. -/
theorem univariateGcdLoop_unbounded
    (left right : MachinePolynomial single K) :
    MultivariatePolynomial.univariateGcdLoop left.toMultivariatePolynomial
        right.toMultivariatePolynomial =
      (univariateGcdLoop left right).map toMultivariatePolynomial := by
  fun_induction univariateGcdLoop left right with
  | case1 left right isZero =>
      rw [MultivariatePolynomial.univariateGcdLoop, if_pos isZero]
      rfl
  | case2 left right isNonzero error divided =>
      rw [MultivariatePolynomial.univariateGcdLoop, if_neg isNonzero]
      have unboundedError := univariateDivRem_unbounded left right
      rw [divided] at unboundedError
      split
      · rename_i otherError failed
        cases failed.symm.trans unboundedError
        rfl
      · rename_i quotient remainder returned
        cases returned.symm.trans unboundedError
  | case3 left right isNonzero quotient remainder divided inductionHypothesis =>
      rw [MultivariatePolynomial.univariateGcdLoop, if_neg isNonzero, ← inductionHypothesis]
      have returns := univariateDivRem_ok divided
      split
      · rename_i error failed
        cases failed.symm.trans returns
      · rename_i otherQuotient otherRemainder returned
        cases returned.symm.trans returns
        rfl

omit [FieldErrors K] in
/-- Scaling by a constant does not wrap. -/
theorem mul_constant
    (poly : MachinePolynomial single K)
    (value : K) :
    (poly * fromTerm 1 Monomial.fits_one value).toMultivariatePolynomial =
      poly.toMultivariatePolynomial * MultivariatePolynomial.fromTerm 1 value := by
  refine MultivariatePolynomial.toMvPolynomial_injective ?_
  have scaled := toMvPolynomial_mul_constant poly value
  rw [MultivariatePolynomial.toMvPolynomial_mul]
  refine scaled.trans ?_
  exact congrArg (poly.toMvPolynomial * ·)
    (MultivariatePolynomial.toMvPolynomial_constant value).symm

/-- The gcd is the one that is returned without a bound. -/
theorem univariateGcd_unbounded
    (left right : MachinePolynomial single K) :
    MultivariatePolynomial.univariateGcd left.toMultivariatePolynomial
        right.toMultivariatePolynomial =
      (univariateGcd left right).map toMultivariatePolynomial := by
  rw [MultivariatePolynomial.univariateGcd, univariateGcd, univariateGcdLoop_unbounded]
  cases univariateGcdLoop left right with
  | error error =>
      rfl
  | ok last =>
      cases shape : last.terms with
      | nil =>
          simp only [Except.map, ok_bind, shape]
      | cons leading rest =>
          simp only [Except.map, ok_bind, shape]
          cases inverted : fieldInv leading.2 with
          | error error =>
              rfl
          | ok inverse =>
              simp only [ok_bind, mul_constant]

/-- `univariate_div_rem` returns quotient and remainder. -/
theorem univariateDivRem_isDivision
    (dividend : MachinePolynomial single K)
    {divisor : MachinePolynomial single K}
    (divisorNonzero : divisor.isZero = false) :
    ∃ quotient remainder,
      univariateDivRem dividend divisor = .ok (quotient, remainder) ∧
        IsDivision dividend divisor quotient remainder := by
  have denotesNonzero : divisor.toMvPolynomial ≠ 0 := by
    intro isZero
    rw [MultivariatePolynomial.isZero_iff.mpr isZero] at divisorNonzero
    cases divisorNonzero
  obtain ⟨_, _, returnsUnbounded, sum, lower⟩ :=
    MultivariatePolynomial.univariateDivRem_spec dividend.toMultivariatePolynomial
      denotesNonzero
  rw [univariateDivRem_unbounded] at returnsUnbounded
  obtain ⟨⟨quotient, remainder⟩, returns, same⟩ := Outcome.map_eq_ok.mp returnsUnbounded
  cases same
  have wrappedSum := congrArg (WrappedExponents.wrap exponentModulus) sum
  have univariateSum := congrArg (MvPolynomial.uniqueAlgEquiv K (Fin 1)) sum
  rw [map_add, map_mul] at wrappedSum univariateSum
  refine ⟨quotient, remainder, returns, ?_, univariateSum,
    Or.inr (MultivariatePolynomial.degree_lt_degree lower)⟩
  apply wrapped_injective
  rw [wrapped_add, wrapped_mul]
  exact wrappedSum

/-- `univariate_gcd` returns the monic greatest common divisor. -/
theorem univariateGcd_isMonicGcd
    (left right : MachinePolynomial single K) :
    ∃ common, univariateGcd left right = .ok common ∧ IsMonicGcd left right common := by
  obtain ⟨_, returnsUnbounded, isGcd, monic⟩ :=
    MultivariatePolynomial.univariateGcd_isGcd left.toMultivariatePolynomial
      right.toMultivariatePolynomial
  rw [univariateGcd_unbounded] at returnsUnbounded
  obtain ⟨common, returns, rfl⟩ := Outcome.map_eq_ok.mp returnsUnbounded
  refine ⟨common, returns, isGcd, ?_, ?_⟩
  · intro isNonzero
    refine monic fun isZero => ?_
    rw [MultivariatePolynomial.isZero_iff_toPolynomial.mpr isZero] at isNonzero
    cases isNonzero
  · simp only [MultivariatePolynomial.isZero_iff_toPolynomial]
    constructor
    · intro isZero
      exact ⟨zero_dvd_iff.mp (isZero ▸ isGcd.dvd_left),
        zero_dvd_iff.mp (isZero ▸ isGcd.dvd_right)⟩
    · rintro ⟨leftZero, rightZero⟩
      refine zero_dvd_iff.mp (isGcd.greatest 0 ?_ ?_)
      · rw [leftZero]
      · rw [rightZero]

/--
The univariate algorithms return: division by a nonzero polynomial its quotient and
remainder, and the Euclidean algorithm the monic greatest common divisor.
-/
theorem univariate_division_and_gcd
    (left right : MachinePolynomial single K) :
    (right.isZero = false →
      ∃ quotient remainder,
        univariateDivRem left right = .ok (quotient, remainder) ∧
          IsDivision left right quotient remainder) ∧
    ∃ common, univariateGcd left right = .ok common ∧ IsMonicGcd left right common :=
  ⟨univariateDivRem_isDivision left, univariateGcd_isMonicGcd left right⟩

end Algorithms

/-- `x^2` is divided by `x`, and their gcd is returned. -/
theorem univariate_division_and_gcd_square :
    let square : MachinePolynomial oneVariable ℚ :=
      fromTerm (Monomial.single 0 2) MultivariatePolynomial.fits_square 1
    let first : MachinePolynomial oneVariable ℚ :=
      fromTerm (Monomial.single 0 1) MultivariatePolynomial.fits_first 1
    (∃ quotient remainder,
      univariateDivRem square first = .ok (quotient, remainder) ∧
        IsDivision square first quotient remainder) ∧
    ∃ common, univariateGcd square first = .ok common ∧ IsMonicGcd square first common := by
  intro square first
  have both := univariate_division_and_gcd square first
  exact ⟨both.1 (by decide +kernel), both.2⟩

end MachinePolynomial

end PolyCore
