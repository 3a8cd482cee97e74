import Stocas.Poly.GcdCorrectness

namespace PolyCore

open Outcome (OnlyThrows bind_eq_ok exists_of_firstSuccess onlyThrows_bind
  onlyThrows_firstSuccess onlyThrows_foldlM onlyThrows_ok)
open SymbolTable (Symbol)

/-!
# What the gcd throws

Nothing but `std::domain_error` leaves the gcd of two polynomials over one variable
list: the internal marker is caught, no division is by zero, no vector is read past
its end, and every leaf of the elimination is univariate.
-/

/-- The errors that are a `std::domain_error`. -/
def PolyError.IsDomainError (error : PolyError) : Prop :=
  ∃ message, error = .domainError message

namespace MultivariatePolynomial

variable {numVars : ℕ} {K : Type} [Field K] [DecidableEq K] [FieldErrors K]

theorem onlyThrows_fieldInv
    (value : K) :
    OnlyThrows PolyError.IsDomainError (fieldInv value) := by
  intro error throws
  rw [fieldInv] at throws
  split at throws
  · cases throws
    exact ⟨_, rfl⟩
  · cases throws

/-- Normalization inverts a nonzero coefficient, so it throws nothing. -/
theorem monicNormalize_returns
    {vars : Fin numVars → Symbol}
    (poly : MultivariatePolynomial vars K) :
    ∃ normalized, monicNormalize poly = .ok normalized := by
  rw [monicNormalize]
  split
  · exact ⟨poly, rfl⟩
  · rename_i leading rest shape
    rw [fieldInv, if_neg (leading_ne_zero shape)]
    exact ⟨_, rfl⟩

theorem onlyThrows_monicNormalize
    {allowed : PolyError → Prop}
    {vars : Fin numVars → Symbol}
    (poly : MultivariatePolynomial vars K) :
    OnlyThrows allowed (monicNormalize poly) := by
  obtain ⟨normalized, returns⟩ := monicNormalize_returns poly
  rw [returns]
  exact onlyThrows_ok

theorem onlyThrows_lagrangeInterpolate
    {vars : Fin numVars → Symbol}
    (varIndex : Fin numVars)
    (samples : List (K × MultivariatePolynomial vars K)) :
    OnlyThrows PolyError.IsDomainError (lagrangeInterpolate varIndex samples) := by
  refine onlyThrows_foldlM ?_ _ _
  intro result item
  exact onlyThrows_bind (onlyThrows_fieldInv _) (fun _ _ => onlyThrows_ok)

/-- Division by a nonzero polynomial throws nothing. -/
theorem onlyThrows_multivariateDivRem
    {allowed : PolyError → Prop}
    {vars : Fin numVars → Symbol}
    (dividend : MultivariatePolynomial vars K)
    {divisor : MultivariatePolynomial vars K}
    (divisorNonzero : divisor.toMvPolynomial ≠ 0) :
    OnlyThrows allowed (multivariateDivRem dividend divisor) := by
  obtain ⟨_, _, returns, _⟩ := multivariateDivRem_spec dividend divisorNonzero
  rw [returns]
  exact onlyThrows_ok

/-- A computation that throws only domain errors throws nothing once they are caught. -/
theorem catchDomainError_returns
    {allowed : PolyError → Prop}
    {α : Type}
    {outcome : Except PolyError (Option α)}
    (throws : OnlyThrows PolyError.IsDomainError outcome) :
    OnlyThrows allowed (catchDomainError outcome) := by
  cases outcome with
  | ok value =>
      exact onlyThrows_ok
  | error error =>
      obtain ⟨message, rfl⟩ := throws error rfl
      exact onlyThrows_ok

theorem onlyThrows_unlessZero
    {allowed : PolyError → Prop}
    {vars : Fin numVars → Symbol}
    {a b : MultivariatePolynomial vars K}
    {otherwise : Except PolyError (MultivariatePolynomial vars K)}
    (computed :
      a.toMvPolynomial ≠ 0 → b.toMvPolynomial ≠ 0 → OnlyThrows allowed otherwise) :
    OnlyThrows allowed (unlessZero a b otherwise) := by
  rw [unlessZero]
  split
  · exact onlyThrows_monicNormalize b
  · rename_i aNonzero
    split
    · exact onlyThrows_monicNormalize a
    · rename_i bNonzero
      exact computed (fun isZero => aNonzero (isZero_iff.mpr isZero))
        (fun isZero => bNonzero (isZero_iff.mpr isZero))

/-- A variable that occurs in no term. -/
def Avoids
    {vars : Fin numVars → Symbol}
    (poly : MultivariatePolynomial vars K)
    (index : Fin numVars) :
    Prop :=
  ∀ term ∈ poly.terms, term.1.exponent index = 0

omit [FieldErrors K] in
/-- Evaluation eliminates its variable and brings in no other. -/
theorem evaluate_avoids
    {vars : Fin numVars → Symbol}
    {poly : MultivariatePolynomial vars K}
    {varIndex index : Fin numVars}
    (value : K)
    (eliminated : index ≠ varIndex → poly.Avoids index) :
    (poly.evaluate varIndex value).Avoids index := by
  intro term member
  obtain ⟨original, originalMember, same⟩ := exists_of_mem_collectTerms member
  obtain ⟨source, sourceMember, rfl⟩ := List.mem_map.mp originalMember
  rw [← same]
  by_cases isVariable : index = varIndex
  · simp [Monomial.freeze, isVariable]
  · simpa [Monomial.freeze, isVariable] using eliminated isVariable source sourceMember

omit [DecidableEq K] [FieldErrors K] in
/-- A polynomial that avoids the other variables is univariate. -/
theorem toUnivariate_returns
    {vars : Fin numVars → Symbol}
    {poly : MultivariatePolynomial vars K}
    {varIndex : Fin numVars}
    (avoids : ∀ index, index ≠ varIndex → poly.Avoids index) :
    ∃ univariate, poly.toUnivariate varIndex = .ok univariate :=
  ⟨_, dif_pos (fun term member index other => avoids index other term member)⟩

omit [DecidableEq K] [FieldErrors K] in
/-- There is a sample for every point. -/
theorem length_collectSamples
    {vars : Fin numVars → Symbol}
    {sampleAt : K → Except PolyError (MultivariatePolynomial vars K)}
    {points : List K}
    {samples : List (K × MultivariatePolynomial vars K)}
    (collected : collectSamples sampleAt points = .ok (some samples)) :
    samples.length = points.length := by
  induction points generalizing samples with
  | nil =>
      cases collected
      rfl
  | cons point rest inductionHypothesis =>
      rw [collectSamples] at collected
      split at collected
      · cases collected
      · cases collected
      · obtain ⟨outcome, restCollected, continues⟩ := bind_eq_ok.mp collected
        cases outcome with
        | none =>
            cases continues
        | some later =>
            cases continues
            simp [inductionHypothesis restCollected]

omit [DecidableEq K] [FieldErrors K] in
/-- Unlucky points are caught. -/
theorem onlyThrows_collectSamples
    {vars : Fin numVars → Symbol}
    {sampleAt : K → Except PolyError (MultivariatePolynomial vars K)}
    (sampleThrows :
      ∀ point, OnlyThrows (fun error => error = .unluckyPoint ∨ error.IsDomainError)
        (sampleAt point))
    (points : List K) :
    OnlyThrows PolyError.IsDomainError (collectSamples sampleAt points) := by
  induction points with
  | nil =>
      exact onlyThrows_ok
  | cons point rest inductionHypothesis =>
      rw [collectSamples]
      split
      · exact onlyThrows_ok
      · rename_i error notUnlucky sampled
        rcases sampleThrows point error sampled with isUnlucky | isDomain
        · exact absurd isUnlucky notUnlucky
        · intro other throws
          cases throws
          exact isDomain
      · refine onlyThrows_bind inductionHypothesis ?_
        intro outcome _
        cases outcome with
        | none =>
            exact onlyThrows_ok
        | some later =>
            exact onlyThrows_ok

theorem onlyThrows_eliminationAttempt
    {vars : Fin numVars → Symbol}
    {sampleAt : K → Except PolyError (MultivariatePolynomial vars K)}
    (sampleThrows :
      ∀ point, OnlyThrows (fun error => error = .unluckyPoint ∨ error.IsDomainError)
        (sampleAt point))
    (varIndex : Fin numVars)
    (numPoints offset : ℕ) :
    OnlyThrows PolyError.IsDomainError
      (eliminationAttempt varIndex numPoints sampleAt offset) := by
  refine onlyThrows_bind (onlyThrows_collectSamples sampleThrows _) ?_
  intro outcome collected
  cases outcome with
  | none =>
      exact onlyThrows_ok
  | some samples =>
      refine onlyThrows_bind (onlyThrows_lagrangeInterpolate _ _) ?_
      intro candidate _
      have enough : numPoints < samples.length := by
        rw [length_collectSamples collected]
        simp
      simp only [List.getElem?_eq_getElem enough]
      split
      · exact onlyThrows_ok
      · exact onlyThrows_ok

/-- Only at the leaf is a point found unlucky. -/
theorem onlyThrows_gcdEliminate
    {vars : Fin (numVars + 1) → Symbol}
    {degreeBounds : Fin (numVars + 1) → ℕ}
    {remaining : List (Fin numVars)}
    {a b : MultivariatePolynomial vars K}
    (aAvoids : ∀ index, index ∉ remaining → a.Avoids index.succ)
    (bAvoids : ∀ index, index ∉ remaining → b.Avoids index.succ)
    (expected : MultivariatePolynomial (Fin.removeNth 0 vars) K)
    (pointSeed : ℕ) :
    OnlyThrows
      (fun error =>
        (error = .unluckyPoint ∧ remaining = []) ∨ error.IsDomainError)
      (gcdEliminate 0 degreeBounds remaining a b expected pointSeed) := by
  induction remaining generalizing a b expected pointSeed with
  | nil =>
      have univariate
          {poly : MultivariatePolynomial vars K}
          (avoids : ∀ index : Fin numVars, index ∉ [] → poly.Avoids index.succ)
          (index : Fin (numVars + 1))
          (other : index ≠ 0) :
          poly.Avoids index := by
        obtain ⟨later, rfl⟩ := Fin.exists_succ_eq.mpr other
        exact avoids later List.not_mem_nil
      obtain ⟨univariateA, projectsA⟩ := toUnivariate_returns (univariate aAvoids)
      obtain ⟨univariateB, projectsB⟩ := toUnivariate_returns (univariate bAvoids)
      obtain ⟨common, isGcd, _⟩ := univariateGcd_spec univariateA univariateB
      intro error throws
      rw [gcdEliminate] at throws
      split at throws
      · cases throws
        exact Or.inl ⟨rfl, rfl⟩
      · rw [projectsA, projectsB] at throws
        simp only [Outcome.ok_bind, isGcd] at throws
        split at throws
        · cases throws
          exact Or.inl ⟨rfl, rfl⟩
        · cases throws
  | cons reducedIndex rest inductionHypothesis =>
      have evaluated
          {poly : MultivariatePolynomial vars K}
          (avoids : ∀ index, index ∉ reducedIndex :: rest → poly.Avoids index.succ)
          (point : K)
          (index : Fin numVars)
          (absent : index ∉ rest) :
          (poly.evaluate reducedIndex.succ point).Avoids index.succ := by
        refine evaluate_avoids point ?_
        intro other
        refine avoids index ?_
        simp only [List.mem_cons, not_or]
        exact ⟨fun same => other (congrArg Fin.succ same), absent⟩
      intro error throws
      refine Or.inr (onlyThrows_firstSuccess ⟨_, rfl⟩ ?_ _ error throws)
      intro attempt
      refine onlyThrows_eliminationAttempt ?_ _ _ _
      intro point other sampleThrows
      have fromSample :=
        inductionHypothesis (evaluated aAvoids point) (evaluated bAvoids point) _ _
          other sampleThrows
      exact fromSample.imp_left And.left

/-- What an elimination returns is not zero, for its samples are not. -/
theorem gcdEliminate_ne_zero
    {vars : Fin (numVars + 1) → Symbol}
    {degreeBounds : Fin (numVars + 1) → ℕ}
    {remaining : List (Fin numVars)}
    {a b : MultivariatePolynomial vars K}
    {expected : MultivariatePolynomial (Fin.removeNth 0 vars) K}
    {pointSeed : ℕ}
    {result : MultivariatePolynomial vars K}
    (returned :
      gcdEliminate 0 degreeBounds remaining a b expected pointSeed = .ok result) :
    result.toMvPolynomial ≠ 0 := by
  induction remaining generalizing a b expected pointSeed result with
  | nil =>
      obtain ⟨target, rest, univariateA, univariateB, common, shape, _, _, _,
        commonNonzero, rfl⟩ := gcdEliminate_leaf returned
      exact embedUnivariate_scaled_ne_zero commonNonzero (leading_ne_zero shape)
  | cons reducedIndex rest inductionHypothesis =>
      obtain ⟨attempt, _, kept⟩ := exists_of_firstSuccess returned
      obtain ⟨point, sampled⟩ := eliminationAttempt_spec kept
      have sampleNonzero := inductionHypothesis sampled
      intro isZero
      exact sampleNonzero (by rw [toMvPolynomial_evaluate, isZero, map_zero])

/-- A domain error of an attempt is caught, and there is no other. -/
theorem onlyThrows_topLevelAttempt
    {vars : Fin (numVars + 2) → Symbol}
    (primitiveA primitiveB liftedContentGcd : MultivariatePolynomial vars K)
    (expected : MultivariatePolynomial (Fin.removeNth 0 vars) K)
    (attempt : ℕ) :
    OnlyThrows PolyError.IsDomainError
      (topLevelAttempt primitiveA primitiveB liftedContentGcd expected attempt) := by
  refine catchDomainError_returns (onlyThrows_bind ?_ ?_)
  · intro error throws
    rcases onlyThrows_gcdEliminate
        (fun index absent => absurd (List.mem_finRange index) absent)
        (fun index absent => absurd (List.mem_finRange index) absent)
        expected _ error throws with atLeaf | isDomain
    · exact absurd atLeaf.2 (by simp [List.finRange_succ])
    · exact isDomain
  · intro candidate eliminated
    refine onlyThrows_bind (onlyThrows_monicNormalize candidate) ?_
    intro primitiveGcd normalized
    have candidateNonzero := gcdEliminate_ne_zero eliminated
    have gcdNonzero : primitiveGcd.toMvPolynomial ≠ 0 := by
      intro isZero
      have divides := (monicNormalize_spec normalized).dvd_right
      rw [isZero, zero_dvd_iff] at divides
      exact candidateNonzero divides
    refine onlyThrows_bind (onlyThrows_multivariateDivRem _ gcdNonzero) ?_
    intro divisionA _
    dsimp only
    split
    · refine onlyThrows_bind (onlyThrows_multivariateDivRem _ gcdNonzero) ?_
      intro divisionB _
      split
      · exact onlyThrows_bind (onlyThrows_monicNormalize _) (fun _ _ => onlyThrows_ok)
      · exact onlyThrows_ok
    · exact onlyThrows_ok

/-- A content throws what the gcd in one variable less throws. -/
theorem onlyThrows_contentIn
    {vars : Fin (numVars + 1) → Symbol}
    {gcd :
      (a b : MultivariatePolynomial (Fin.removeNth 0 vars) K) →
        Except PolyError (MultivariatePolynomial (Fin.removeNth 0 vars) K)}
    (gcdThrows : ∀ a b, OnlyThrows PolyError.IsDomainError (gcd a b))
    {poly : MultivariatePolynomial vars K}
    (isNonzero : poly.toMvPolynomial ≠ 0) :
    OnlyThrows PolyError.IsDomainError (contentIn 0 gcd poly) := by
  rw [contentIn]
  split
  · rename_i noCoefficients
    have value := (coefficientPolys_spec poly).2
    rw [noCoefficients] at value
    exact absurd value.symm (inMain_ne_zero isNonzero)
  · exact onlyThrows_bind (onlyThrows_foldlM (fun _ _ => gcdThrows _ _) _ _)
      (fun _ _ => onlyThrows_monicNormalize _)

/-- In several variables only domain errors are thrown if they are in one less. -/
theorem onlyThrows_gcdByElimination
    {vars : Fin (numVars + 2) → Symbol}
    {gcd :
      (a b : MultivariatePolynomial (Fin.removeNth 0 vars) K) →
        Except PolyError (MultivariatePolynomial (Fin.removeNth 0 vars) K)}
    (returnsGcds : ReturnsGcds gcd)
    (gcdThrows : ∀ a b, OnlyThrows PolyError.IsDomainError (gcd a b))
    {a b : MultivariatePolynomial vars K}
    (aNonzero : a.toMvPolynomial ≠ 0)
    (bNonzero : b.toMvPolynomial ≠ 0) :
    OnlyThrows PolyError.IsDomainError (gcdByElimination gcd a b) := by
  have liftedNonzero
      {poly : MultivariatePolynomial vars K}
      (isNonzero : poly.toMvPolynomial ≠ 0)
      {content : MultivariatePolynomial (Fin.removeNth 0 vars) K}
      (isContent : contentIn 0 gcd poly = .ok content) :
      (insertMissingVariable 0 content : MultivariatePolynomial vars K).toMvPolynomial ≠
        0 :=
    ne_zero_of_dvd_ne_zero isNonzero
      (insertMissingVariable_content_dvd returnsGcds isContent)
  refine onlyThrows_bind (onlyThrows_contentIn gcdThrows aNonzero) ?_
  intro contentA isContentA
  refine onlyThrows_bind (onlyThrows_contentIn gcdThrows bNonzero) ?_
  intro contentB isContentB
  refine onlyThrows_bind (gcdThrows _ _) ?_
  intro contentGcd _
  refine onlyThrows_bind
    (onlyThrows_multivariateDivRem _ (liftedNonzero aNonzero isContentA)) ?_
  intro divisionA _
  refine onlyThrows_bind
    (onlyThrows_multivariateDivRem _ (liftedNonzero bNonzero isContentB)) ?_
  intro divisionB _
  refine onlyThrows_bind (gcdThrows _ _) ?_
  intro expected _
  exact onlyThrows_firstSuccess ⟨_, rfl⟩ (onlyThrows_topLevelAttempt _ _ _ _) _

/-- `finite_field_multivariate_gcd` throws nothing but `std::domain_error`. -/
theorem onlyThrows_finiteFieldMultivariateGcd
    (otherVars : ℕ)
    {vars : Fin (otherVars + 1) → Symbol}
    (a b : MultivariatePolynomial vars K) :
    OnlyThrows PolyError.IsDomainError (finiteFieldMultivariateGcd otherVars a b) := by
  induction otherVars with
  | zero =>
      obtain ⟨common, returns, _⟩ := gcdOfUnivariate_spec a b
      refine onlyThrows_unlessZero ?_
      intro _ _
      rw [returns]
      exact onlyThrows_ok
  | succ otherVars inductionHypothesis =>
      refine onlyThrows_unlessZero ?_
      intro aNonzero bNonzero
      exact onlyThrows_gcdByElimination (finiteFieldMultivariateGcd_returnsGcds otherVars)
        inductionHypothesis aNonzero bNonzero

/--
`finite_field_multivariate_gcd` ends for every pair of polynomials.  It returns their
monic greatest common divisor or throws `std::domain_error`.
-/
theorem finiteFieldMultivariateGcd_correct
    (otherVars : ℕ)
    {vars : Fin (otherVars + 1) → Symbol}
    (a b : MultivariatePolynomial vars K) :
    match finiteFieldMultivariateGcd otherVars a b with
    | .ok common =>
        IsMonicGcd a.toMvPolynomial b.toMvPolynomial common.toMvPolynomial
    | .error error => error.IsDomainError := by
  split
  · rename_i common returned
    exact finiteFieldMultivariateGcd_returnsGcds otherVars a b common returned
  · rename_i error thrown
    exact onlyThrows_finiteFieldMultivariateGcd otherVars a b error thrown

end MultivariatePolynomial

end PolyCore
