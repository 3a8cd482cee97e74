import Mathlib.RingTheory.Polynomial.UniqueFactorization
import Stocas.Poly.EliminationDegree

namespace PolyCore

open GreatestCommonDivisor (IsGcd isGcd_of_natDegree isGcd_of_parts isPrimitive_of_content)
open Outcome (bind_eq_ok exists_of_firstSuccess ok_bind)
open SymbolTable (Symbol)

/-!
# The gcd over a field is never wrong

Contents and primitive parts split the gcd.  A candidate that divides both
primitive parts and reaches the degree of their common divisors is their gcd, so
whatever is returned is the monic greatest common divisor.
-/

namespace MultivariatePolynomial

variable {numVars : ℕ} {K : Type} [Field K] [DecidableEq K] [FieldErrors K]

/-- A gcd function that returns nothing but monic greatest common divisors. -/
def ReturnsGcds
    {vars : Fin numVars → Symbol}
    (gcd :
      (a b : MultivariatePolynomial vars K) →
        Except PolyError (MultivariatePolynomial vars K)) :
    Prop :=
  ∀ a b common, gcd a b = .ok common →
    IsMonicGcd a.toMvPolynomial b.toMvPolynomial common.toMvPolynomial

/-- A gcd that is normalized is the monic gcd. -/
theorem isMonicGcd_monicNormalize
    {vars : Fin numVars → Symbol}
    {poly normalized : MultivariatePolynomial vars K}
    (returned : monicNormalize poly = .ok normalized)
    {left right : MvPolynomial (Fin numVars) K}
    (isGcd : IsGcd left right poly.toMvPolynomial) :
    IsMonicGcd left right normalized.toMvPolynomial := by
  rw [monicNormalize] at returned
  split at returned
  · rename_i noTerms
    cases returned
    exact ⟨isGcd, fun isNonzero =>
      absurd (toMvPolynomial_eq_zero_iff.mpr noTerms) isNonzero⟩
  · rename_i leading rest shape
    rw [fieldInv, if_neg (leading_ne_zero shape), ok_bind] at returned
    cases returned
    exact isMonicGcd_scale shape isGcd

/-- Normalization returns an associate. -/
theorem monicNormalize_spec
    {vars : Fin numVars → Symbol}
    {poly normalized : MultivariatePolynomial vars K}
    (returned : monicNormalize poly = .ok normalized) :
    IsMonicGcd 0 poly.toMvPolynomial normalized.toMvPolynomial :=
  isMonicGcd_monicNormalize returned (IsGcd.zero_left _)

omit [DecidableEq K] [FieldErrors K] in
/-- Folding a gcd over coefficients gives what all of them are divisible by. -/
theorem dvd_foldlM_iff
    {vars : Fin numVars → Symbol}
    {gcd :
      (a b : MultivariatePolynomial vars K) →
        Except PolyError (MultivariatePolynomial vars K)}
    (returnsGcds : ReturnsGcds gcd)
    {groups : List (ℕ × MultivariatePolynomial vars K)}
    {start result : MultivariatePolynomial vars K}
    (returned :
      groups.foldlM (fun result group => gcd result group.2) start = .ok result)
    (divisor : MvPolynomial (Fin numVars) K) :
    divisor ∣ result.toMvPolynomial ↔
      divisor ∣ start.toMvPolynomial ∧
        ∀ group ∈ groups, divisor ∣ group.2.toMvPolynomial := by
  induction groups generalizing start with
  | nil =>
      cases returned
      simp
  | cons group rest inductionHypothesis =>
      rw [List.foldlM_cons] at returned
      obtain ⟨next, isGcd, returned⟩ := bind_eq_ok.mp returned
      rw [inductionHypothesis returned, (returnsGcds _ _ _ isGcd).dvd_iff,
        List.forall_mem_cons, and_assoc]

/-- The content is divided by what divides every coefficient in the main variable. -/
theorem dvd_contentIn_iff
    {vars : Fin (numVars + 1) → Symbol}
    {gcd :
      (a b : MultivariatePolynomial (Fin.removeNth 0 vars) K) →
        Except PolyError (MultivariatePolynomial (Fin.removeNth 0 vars) K)}
    (returnsGcds : ReturnsGcds gcd)
    {poly : MultivariatePolynomial vars K}
    {content : MultivariatePolynomial (Fin.removeNth 0 vars) K}
    (returned : contentIn 0 gcd poly = .ok content)
    (divisor : MvPolynomial (Fin numVars) K) :
    divisor ∣ content.toMvPolynomial ↔
      ∀ power, divisor ∣ poly.inMain.coeff power := by
  rw [← forall_dvd_coefficientPolys]
  rw [contentIn] at returned
  split at returned
  · cases returned
  · rename_i first rest shape
    obtain ⟨common, folded, normalized⟩ := bind_eq_ok.mp returned
    rw [shape, List.forall_mem_cons, (monicNormalize_spec normalized).dvd_iff,
      dvd_foldlM_iff returnsGcds folded]
    exact and_iff_right (dvd_zero divisor)

/-- The lifted content divides the polynomial. -/
theorem insertMissingVariable_content_dvd
    {vars : Fin (numVars + 1) → Symbol}
    {gcd :
      (a b : MultivariatePolynomial (Fin.removeNth 0 vars) K) →
        Except PolyError (MultivariatePolynomial (Fin.removeNth 0 vars) K)}
    (returnsGcds : ReturnsGcds gcd)
    {poly : MultivariatePolynomial vars K}
    {content : MultivariatePolynomial (Fin.removeNth 0 vars) K}
    (isContent : contentIn 0 gcd poly = .ok content) :
    (insertMissingVariable 0 content : MultivariatePolynomial vars K).toMvPolynomial ∣
      poly.toMvPolynomial := by
  have contentDivides :
      Polynomial.C content.toMvPolynomial ∣ poly.inMain :=
    (Polynomial.C_dvd_iff_dvd_coeff _ _).mpr
      ((dvd_contentIn_iff returnsGcds isContent _).mp dvd_rfl)
  rw [← inMain_insertMissingVariable] at contentDivides
  exact (map_dvd_iff (MvPolynomial.finSuccEquiv K numVars)).mp contentDivides

/-- The quotient by the lifted content is the primitive part. -/
theorem multivariateDivRem_content
    {vars : Fin (numVars + 1) → Symbol}
    {gcd :
      (a b : MultivariatePolynomial (Fin.removeNth 0 vars) K) →
        Except PolyError (MultivariatePolynomial (Fin.removeNth 0 vars) K)}
    (returnsGcds : ReturnsGcds gcd)
    {poly primitive remainder : MultivariatePolynomial vars K}
    {content : MultivariatePolynomial (Fin.removeNth 0 vars) K}
    (isContent : contentIn 0 gcd poly = .ok content)
    (divided :
      multivariateDivRem poly (insertMissingVariable 0 content) =
        .ok (primitive, remainder)) :
    poly.inMain = Polynomial.C content.toMvPolynomial * primitive.inMain := by
  obtain ⟨division, exact_iff⟩ := multivariateDivRem_ok divided
  rw [exact_iff.mpr (insertMissingVariable_content_dvd returnsGcds isContent), add_zero]
    at division
  rw [← inMain_insertMissingVariable, inMain, division, map_mul, mul_comm]
  rfl

omit [DecidableEq K] in
/-- A caught attempt that has a result did not throw. -/
theorem catchDomainError_eq_some
    {α : Type}
    {outcome : Except PolyError (Option α)}
    {result : α} :
    catchDomainError outcome = .ok (some result) ↔ outcome = .ok (some result) := by
  cases outcome with
  | ok value =>
      rfl
  | error error =>
      cases error <;> simp [catchDomainError]

/-- Normalizing keeps the degrees that a candidate reaches. -/
theorem reachesDegrees_monicNormalize
    {vars : Fin (numVars + 1) → Symbol}
    {a b candidate normalized : MultivariatePolynomial vars K}
    {expected : MvPolynomial (Fin numVars) K}
    (reaches : ReachesDegrees a b expected candidate)
    (returned : monicNormalize candidate = .ok normalized) :
    ReachesDegrees a b expected normalized := by
  intro divisor dividesA dividesB leadingDivides
  have associate := monicNormalize_spec returned
  have candidateDivides : candidate.toMvPolynomial ∣ normalized.toMvPolynomial :=
    associate.greatest _ (dvd_zero _) dvd_rfl
  refine le_trans (reaches divisor dividesA dividesB leadingDivides) ?_
  by_cases isZero : normalized.toMvPolynomial = 0
  · have candidateZero : candidate.toMvPolynomial = 0 :=
      zero_dvd_iff.mp (isZero ▸ associate.dvd_right)
    simp [inMain, candidateZero]
  · exact Polynomial.natDegree_le_of_dvd
      (map_dvd (MvPolynomial.finSuccEquiv K numVars) candidateDivides)
      (inMain_ne_zero isZero)

/-- What an attempt returns comes from a candidate that divides both primitive parts. -/
theorem topLevelAttempt_spec
    {vars : Fin (numVars + 1) → Symbol}
    {primitiveA primitiveB liftedContentGcd result : MultivariatePolynomial vars K}
    {expected : MultivariatePolynomial (Fin.removeNth 0 vars) K}
    {attempt : ℕ}
    (kept :
      topLevelAttempt primitiveA primitiveB liftedContentGcd expected attempt =
        .ok (some result)) :
    ∃ primitiveGcd : MultivariatePolynomial vars K,
      primitiveGcd.toMvPolynomial ∣ primitiveA.toMvPolynomial ∧
      primitiveGcd.toMvPolynomial ∣ primitiveB.toMvPolynomial ∧
      ReachesDegrees primitiveA primitiveB expected.toMvPolynomial primitiveGcd ∧
      monicNormalize (liftedContentGcd * primitiveGcd) = .ok result := by
  rw [topLevelAttempt, catchDomainError_eq_some] at kept
  obtain ⟨candidate, eliminated, kept⟩ := bind_eq_ok.mp kept
  obtain ⟨primitiveGcd, normalized, kept⟩ := bind_eq_ok.mp kept
  obtain ⟨⟨quotientA, remainderA⟩, dividedA, kept⟩ := bind_eq_ok.mp kept
  dsimp only at kept
  split at kept
  · rename_i exactA
    obtain ⟨⟨quotientB, remainderB⟩, dividedB, kept⟩ := bind_eq_ok.mp kept
    dsimp only at kept
    split at kept
    · rename_i exactB
      obtain ⟨returned, isResult, same⟩ := bind_eq_ok.mp kept
      cases same
      have reaches := (gcdEliminate_reachesDegrees eliminated).2
      exact ⟨primitiveGcd,
        (multivariateDivRem_ok dividedA).2.mp (isZero_iff.mp exactA),
        (multivariateDivRem_ok dividedB).2.mp (isZero_iff.mp exactB),
        reachesDegrees_monicNormalize reaches normalized, isResult⟩
    · cases kept
  · cases kept

/-- The answers for a zero input are right if the computed ones are. -/
theorem isMonicGcd_unlessZero
    {vars : Fin numVars → Symbol}
    {a b common : MultivariatePolynomial vars K}
    {otherwise : Except PolyError (MultivariatePolynomial vars K)}
    (returned : unlessZero a b otherwise = .ok common)
    (computed :
      a.toMvPolynomial ≠ 0 → b.toMvPolynomial ≠ 0 → otherwise = .ok common →
        IsMonicGcd a.toMvPolynomial b.toMvPolynomial common.toMvPolynomial) :
    IsMonicGcd a.toMvPolynomial b.toMvPolynomial common.toMvPolynomial := by
  rw [unlessZero] at returned
  split at returned
  · rename_i aZero
    rw [isZero_iff.mp aZero]
    exact monicNormalize_spec returned
  · rename_i aNonzero
    split at returned
    · rename_i bZero
      rw [isZero_iff.mp bZero]
      exact isMonicGcd_monicNormalize returned (IsGcd.zero_right _)
    · rename_i bNonzero
      exact computed (fun isZero => aNonzero (isZero_iff.mpr isZero))
        (fun isZero => bNonzero (isZero_iff.mpr isZero)) returned

/-- One variable is not renamed. -/
theorem onlyVariable_eq_id : (fun _ : Fin 1 => (0 : Fin 1)) = id :=
  funext (fun index => Subsingleton.elim 0 index)

omit [DecidableEq K] [FieldErrors K] in
/-- A polynomial in one variable projects to itself. -/
theorem toUnivariate_of_one
    {vars : Fin 1 → Symbol}
    (poly : MultivariatePolynomial vars K) :
    ∃ univariate,
      poly.toUnivariate 0 = .ok univariate ∧
      univariate.toMvPolynomial = poly.toMvPolynomial := by
  have noOther :
      ∀ term ∈ poly.terms, ∀ index, index ≠ 0 → term.1.exponent index = 0 :=
    fun _ _ index other => absurd (Subsingleton.elim index 0) other
  refine ⟨_, dif_pos noOther, ?_⟩
  have renamed := rename_toUnivariate (dif_pos noOther : poly.toUnivariate 0 = .ok _)
  rw [onlyVariable_eq_id, MvPolynomial.rename_id_apply] at renamed
  exact renamed

/-- The one-variable case returns the monic gcd. -/
theorem gcdOfUnivariate_spec
    {vars : Fin 1 → Symbol}
    (a b : MultivariatePolynomial vars K) :
    ∃ common,
      gcdOfUnivariate a b = .ok common ∧
      IsMonicGcd a.toMvPolynomial b.toMvPolynomial common.toMvPolynomial := by
  obtain ⟨univariateA, projectsA, sameA⟩ := toUnivariate_of_one a
  obtain ⟨univariateB, projectsB, sameB⟩ := toUnivariate_of_one b
  obtain ⟨common, returns, isGcd, _⟩ := univariateGcd_spec univariateA univariateB
  refine ⟨embedUnivariate 0 common, ?_, ?_⟩
  · simp only [gcdOfUnivariate, projectsA, projectsB, ok_bind, returns]
  · rw [toMvPolynomial_embedUnivariate, onlyVariable_eq_id, MvPolynomial.rename_id_apply,
      ← sameA, ← sameB]
    exact isGcd

/-- In several variables, what is returned is the monic gcd if it is in one less. -/
theorem gcdByElimination_returnsGcds
    {vars : Fin (numVars + 1) → Symbol}
    {gcd :
      (a b : MultivariatePolynomial (Fin.removeNth 0 vars) K) →
        Except PolyError (MultivariatePolynomial (Fin.removeNth 0 vars) K)}
    (returnsGcds : ReturnsGcds gcd)
    {a b common : MultivariatePolynomial vars K}
    (aNonzero : a.toMvPolynomial ≠ 0)
    (bNonzero : b.toMvPolynomial ≠ 0)
    (returned : gcdByElimination gcd a b = .ok common) :
    IsMonicGcd a.toMvPolynomial b.toMvPolynomial common.toMvPolynomial := by
  obtain ⟨contentA, isContentA, returned⟩ := bind_eq_ok.mp returned
  obtain ⟨contentB, isContentB, returned⟩ := bind_eq_ok.mp returned
  obtain ⟨contentGcd, isContentGcd, returned⟩ := bind_eq_ok.mp returned
  obtain ⟨⟨primitiveA, remainderA⟩, dividedA, returned⟩ := bind_eq_ok.mp returned
  obtain ⟨⟨primitiveB, remainderB⟩, dividedB, returned⟩ := bind_eq_ok.mp returned
  obtain ⟨expected, isExpected, returned⟩ := bind_eq_ok.mp returned
  obtain ⟨attempt, _, kept⟩ := exists_of_firstSuccess returned
  obtain ⟨primitiveGcd, dividesA, dividesB, reaches, normalized⟩ :=
    topLevelAttempt_spec kept
  let normalization : StrongNormalizationMonoid (MvPolynomial (Fin numVars) K) :=
    UniqueFactorizationMonoid.strongNormalizationMonoid
  let gcds : NormalizedGCDMonoid (MvPolynomial (Fin numVars) K) :=
    UniqueFactorizationMonoid.toNormalizedGCDMonoid _
  have partsA := multivariateDivRem_content returnsGcds isContentA dividedA
  have partsB := multivariateDivRem_content returnsGcds isContentB dividedB
  have greatestA := fun divisor => (dvd_contentIn_iff returnsGcds isContentA divisor).mpr
  have greatestB := fun divisor => (dvd_contentIn_iff returnsGcds isContentB divisor).mpr
  have isExpectedGcd := returnsGcds _ _ _ isExpected
  rw [toMvPolynomial_leadingCoefficientIn, toMvPolynomial_leadingCoefficientIn]
    at isExpectedGcd
  have primitives : IsGcd primitiveA.inMain primitiveB.inMain primitiveGcd.inMain := by
    refine isGcd_of_natDegree
      (isPrimitive_of_content (inMain_ne_zero aNonzero) partsA greatestA)
      (map_dvd (MvPolynomial.finSuccEquiv K numVars) dividesA)
      (map_dvd (MvPolynomial.finSuccEquiv K numVars) dividesB) ?_
    intro divisor divisorA divisorB
    refine reaches divisor divisorA divisorB (isExpectedGcd.greatest _ ?_ ?_)
    · exact Polynomial.leadingCoeff_dvd_leadingCoeff divisorA
    · exact Polynomial.leadingCoeff_dvd_leadingCoeff divisorB
  have whole :=
    isGcd_of_parts (inMain_ne_zero aNonzero) (inMain_ne_zero bNonzero) partsA partsB
      greatestA greatestB (returnsGcds _ _ _ isContentGcd).toIsGcd primitives
  refine isMonicGcd_monicNormalize normalized
    (IsGcd.of_map (MvPolynomial.finSuccEquiv K numVars).toMulEquiv ?_)
  rw [← inMain_insertMissingVariable] at whole
  have product :
      (insertMissingVariable 0 contentGcd * primitiveGcd :
          MultivariatePolynomial vars K).inMain =
        (insertMissingVariable 0 contentGcd : MultivariatePolynomial vars K).inMain *
          primitiveGcd.inMain := by
    rw [inMain, toMvPolynomial_mul, map_mul]
    rfl
  rw [← product] at whole
  exact whole

/-- `finite_field_multivariate_gcd` returns nothing but monic greatest common divisors. -/
theorem finiteFieldMultivariateGcd_returnsGcds
    (otherVars : ℕ)
    {vars : Fin (otherVars + 1) → Symbol} :
    ReturnsGcds (@finiteFieldMultivariateGcd K _ _ _ otherVars vars) := by
  induction otherVars with
  | zero =>
      intro a b common returned
      refine isMonicGcd_unlessZero returned ?_
      intro _ _ returned
      obtain ⟨_, returns, isGcd⟩ := gcdOfUnivariate_spec a b
      rw [returns] at returned
      cases returned
      exact isGcd
  | succ otherVars inductionHypothesis =>
      intro a b common returned
      refine isMonicGcd_unlessZero returned ?_
      intro aNonzero bNonzero returned
      exact gcdByElimination_returnsGcds inductionHypothesis aNonzero bNonzero returned

end MultivariatePolynomial

end PolyCore
