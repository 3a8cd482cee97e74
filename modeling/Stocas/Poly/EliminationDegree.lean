import Stocas.Poly.MultivariateGcd
import Stocas.Poly.VariableValues

namespace PolyCore

open GreatestCommonDivisor (IsGcd)
open Outcome (bind_eq_ok exists_of_firstSuccess)
open SymbolTable (Symbol)

/-!
# The degree of an eliminated gcd

Whatever points are chosen, what `gcd_eliminate` returns has at least the degree,
in the main variable, of every common divisor whose leading coefficient divides
the predicted one: a sample exists only where the prediction does not vanish, and
there the divisor keeps its degree.
-/

namespace MultivariatePolynomial

variable {numVars : ℕ} {K : Type} [Field K] [DecidableEq K] [FieldErrors K]

omit [DecidableEq K] [FieldErrors K] in
/-- Collected samples are the samples at their points. -/
theorem collectSamples_spec
    {vars : Fin numVars → Symbol}
    {sampleAt : K → Except PolyError (MultivariatePolynomial vars K)}
    {points : List K}
    {samples : List (K × MultivariatePolynomial vars K)}
    (collected : collectSamples sampleAt points = .ok (some samples)) :
    ∀ sample ∈ samples, sampleAt sample.1 = .ok sample.2 := by
  induction points generalizing samples with
  | nil =>
      cases collected
      simp
  | cons point rest inductionHypothesis =>
      rw [collectSamples] at collected
      split at collected
      · cases collected
      · cases collected
      · rename_i first sampled
        obtain ⟨outcome, restCollected, continues⟩ := bind_eq_ok.mp collected
        cases outcome with
        | none =>
            cases continues
        | some later =>
            cases continues
            intro sample member
            rcases List.mem_cons.mp member with isFirst | inLater
            · rw [isFirst]
              exact sampled
            · exact inductionHypothesis restCollected sample inLater

/-- A candidate is kept when it agrees with the sample at the check point. -/
theorem eliminationAttempt_spec
    {vars : Fin numVars → Symbol}
    {varIndex : Fin numVars}
    {numPoints offset : ℕ}
    {sampleAt : K → Except PolyError (MultivariatePolynomial vars K)}
    {candidate : MultivariatePolynomial vars K}
    (kept :
      eliminationAttempt varIndex numPoints sampleAt offset = .ok (some candidate)) :
    ∃ point, sampleAt point = .ok (candidate.evaluate varIndex point) := by
  obtain ⟨outcome, collected, continues⟩ := bind_eq_ok.mp kept
  cases outcome with
  | none =>
      cases continues
  | some samples =>
      obtain ⟨interpolated, _, checked⟩ := bind_eq_ok.mp continues
      split at checked
      · cases checked
      · rename_i checkPoint checkSample isCheck
        split at checked
        · rename_i agrees
          cases checked
          refine ⟨checkPoint, ?_⟩
          rw [agrees]
          exact collectSamples_spec collected _ (List.mem_of_getElem? isCheck)
        · cases checked

/-- The degree in the main variable reaches that of every divisor of the inputs. -/
def ReachesDegrees
    {vars : Fin (numVars + 1) → Symbol}
    (a b : MultivariatePolynomial vars K)
    (expected : MvPolynomial (Fin numVars) K)
    (result : MultivariatePolynomial vars K) :
    Prop :=
  ∀ divisor : Polynomial (MvPolynomial (Fin numVars) K),
    divisor ∣ a.inMain → divisor ∣ b.inMain →
    divisor.leadingCoeff ∣ expected →
    divisor.natDegree ≤ result.inMain.natDegree

omit [DecidableEq K] [FieldErrors K] in
theorem inMain_ne_zero
    {vars : Fin (numVars + 1) → Symbol}
    {poly : MultivariatePolynomial vars K}
    (isNonzero : poly.toMvPolynomial ≠ 0) :
    poly.inMain ≠ 0 :=
  (map_ne_zero_iff _ (MvPolynomial.finSuccEquiv K numVars).injective).mpr isNonzero

omit [FieldErrors K] in
/-- A scaled univariate gcd is not zero in the longer variable list either. -/
theorem embedUnivariate_scaled_ne_zero
    {single : Fin 1 → Symbol}
    {vars : Fin (numVars + 1) → Symbol}
    {common : MultivariatePolynomial single K}
    (commonNonzero : common.toMvPolynomial ≠ 0)
    {target : K}
    (targetNonzero : target ≠ 0) :
    (embedUnivariate 0 (common * constant target) :
        MultivariatePolynomial vars K).toMvPolynomial ≠ 0 := by
  rw [toMvPolynomial_embedUnivariate, toMvPolynomial_mul, toMvPolynomial_constant]
  refine (map_ne_zero_iff _ (MvPolynomial.rename_injective _ ?_)).mpr ?_
  · exact Function.injective_of_subsingleton _
  · exact mul_ne_zero commonNonzero (MvPolynomial.C_ne_zero.mpr targetNonzero)

/-- At the univariate leaf the divisor divides the gcd, a combination of the inputs. -/
theorem reachesDegrees_leaf
    {vars : Fin (numVars + 1) → Symbol}
    {a b : MultivariatePolynomial vars K}
    {univariateA univariateB common :
      MultivariatePolynomial (fun _ : Fin 1 => vars 0) K}
    (projectsA : a.toUnivariate 0 = .ok univariateA)
    (projectsB : b.toUnivariate 0 = .ok univariateB)
    (isGcd : univariateGcd univariateA univariateB = .ok common)
    (commonNonzero : common.toMvPolynomial ≠ 0)
    {target : K}
    (targetNonzero : target ≠ 0)
    (expected : MvPolynomial (Fin numVars) K) :
    ReachesDegrees a b expected (embedUnivariate 0 (common * constant target)) := by
  obtain ⟨returned, returns, _, leftFactor, rightFactor, combination⟩ :=
    univariateGcd_spec univariateA univariateB
  rw [returns] at isGcd
  cases isGcd
  intro divisor dividesA dividesB _
  have embedded :
      (embedUnivariate 0 (common * constant target) :
          MultivariatePolynomial vars K).toMvPolynomial =
        MvPolynomial.rename (fun _ => 0) (leftFactor * MvPolynomial.C target) *
            a.toMvPolynomial +
          MvPolynomial.rename (fun _ => 0) (rightFactor * MvPolynomial.C target) *
            b.toMvPolynomial := by
    rw [toMvPolynomial_embedUnivariate, toMvPolynomial_mul, toMvPolynomial_constant,
      combination, ← rename_toUnivariate projectsA, ← rename_toUnivariate projectsB,
      ← map_mul, ← map_mul, ← map_add]
    ring_nf
  have dividesResult :
      divisor ∣
        (embedUnivariate 0 (common * constant target) :
          MultivariatePolynomial vars K).inMain := by
    rw [inMain, embedded]
    simp only [map_add, map_mul]
    exact dvd_add (dividesA.mul_left _) (dividesB.mul_left _)
  exact Polynomial.natDegree_le_of_dvd dividesResult
    (inMain_ne_zero (embedUnivariate_scaled_ne_zero commonNonzero targetNonzero))

omit [FieldErrors K] in
/-- A sample at a point where the prediction does not vanish bounds the degree. -/
theorem reachesDegrees_of_evaluate
    {vars : Fin (numVars + 1) → Symbol}
    {a b result : MultivariatePolynomial vars K}
    {expected : MvPolynomial (Fin numVars) K}
    {reducedIndex : Fin numVars}
    {point : K}
    (staysNonzero : substitute reducedIndex point expected ≠ 0)
    (reaches :
      ReachesDegrees (a.evaluate reducedIndex.succ point)
        (b.evaluate reducedIndex.succ point) (substitute reducedIndex point expected)
        (result.evaluate reducedIndex.succ point)) :
    ReachesDegrees a b expected result := by
  intro divisor dividesA dividesB leadingDivides
  let specialize := (substitute (K := K) reducedIndex point).toRingHom
  have evaluated
      (poly : MultivariatePolynomial vars K) :
      (poly.evaluate reducedIndex.succ point).inMain = poly.inMain.map specialize := by
    rw [inMain, toMvPolynomial_evaluate, finSuccEquiv_substitute]
    rfl
  have leadingStays : specialize divisor.leadingCoeff ≠ 0 := by
    intro vanishes
    have divides := map_dvd specialize leadingDivides
    rw [vanishes, zero_dvd_iff] at divides
    exact staysNonzero divides
  have leadingCoefficient :
      (divisor.map specialize).leadingCoeff = specialize divisor.leadingCoeff :=
    Polynomial.leadingCoeff_map_of_leadingCoeff_ne_zero specialize leadingStays
  have sampleBound : (divisor.map specialize).natDegree ≤
      (result.evaluate reducedIndex.succ point).inMain.natDegree := by
    refine reaches (divisor.map specialize) ?_ ?_ ?_
    · rw [evaluated]
      exact Polynomial.map_dvd specialize dividesA
    · rw [evaluated]
      exact Polynomial.map_dvd specialize dividesB
    · rw [leadingCoefficient]
      exact map_dvd specialize leadingDivides
  calc
    divisor.natDegree = (divisor.map specialize).natDegree :=
      (Polynomial.natDegree_map_of_leadingCoeff_ne_zero specialize leadingStays).symm
    _ ≤ (result.inMain.map specialize).natDegree := evaluated result ▸ sampleBound
    _ ≤ result.inMain.natDegree := Polynomial.natDegree_map_le

/-- At a leaf the gcd of the univariate images is scaled to the expected coefficient. -/
theorem gcdEliminate_leaf
    {vars : Fin (numVars + 1) → Symbol}
    {degreeBounds : Fin (numVars + 1) → ℕ}
    {a b : MultivariatePolynomial vars K}
    {expected : MultivariatePolynomial (Fin.removeNth 0 vars) K}
    {pointSeed : ℕ}
    {result : MultivariatePolynomial vars K}
    (returned : gcdEliminate 0 degreeBounds [] a b expected pointSeed = .ok result) :
    ∃ target rest univariateA univariateB common,
      expected.terms = target :: rest ∧
      a.toUnivariate 0 = .ok univariateA ∧
      b.toUnivariate 0 = .ok univariateB ∧
      univariateGcd univariateA univariateB = .ok common ∧
      common.toMvPolynomial ≠ 0 ∧
      result = embedUnivariate 0 (common * constant target.2) := by
  rw [gcdEliminate] at returned
  split at returned
  · cases returned
  · rename_i target rest shape
    obtain ⟨univariateA, projectsA, returned⟩ := bind_eq_ok.mp returned
    obtain ⟨univariateB, projectsB, returned⟩ := bind_eq_ok.mp returned
    obtain ⟨common, isGcd, returned⟩ := bind_eq_ok.mp returned
    split at returned
    · cases returned
    · rename_i isNonzero
      cases returned
      exact ⟨target, rest, univariateA, univariateB, common, shape, projectsA, projectsB,
        isGcd, fun isZero => isNonzero (isZero_iff.mpr isZero), rfl⟩

/-- What `gcd_eliminate` returns reaches the degree of every common divisor. -/
theorem gcdEliminate_reachesDegrees
    {vars : Fin (numVars + 1) → Symbol}
    {degreeBounds : Fin (numVars + 1) → ℕ}
    {remaining : List (Fin numVars)}
    {a b : MultivariatePolynomial vars K}
    {expected : MultivariatePolynomial (Fin.removeNth 0 vars) K}
    {pointSeed : ℕ}
    {result : MultivariatePolynomial vars K}
    (returned :
      gcdEliminate 0 degreeBounds remaining a b expected pointSeed = .ok result) :
    expected.toMvPolynomial ≠ 0 ∧
      ReachesDegrees a b expected.toMvPolynomial result := by
  induction remaining generalizing a b expected pointSeed result with
  | nil =>
      obtain ⟨target, rest, univariateA, univariateB, common, shape, projectsA, projectsB,
        isGcd, commonNonzero, rfl⟩ := gcdEliminate_leaf returned
      constructor
      · simp [toMvPolynomial_eq_zero_iff, shape]
      · exact reachesDegrees_leaf projectsA projectsB isGcd commonNonzero
          (leading_ne_zero shape) _
  | cons reducedIndex rest inductionHypothesis =>
      obtain ⟨attempt, _, kept⟩ := exists_of_firstSuccess returned
      obtain ⟨point, sampled⟩ := eliminationAttempt_spec kept
      obtain ⟨staysNonzero, reaches⟩ := inductionHypothesis sampled
      rw [toMvPolynomial_evaluate] at staysNonzero reaches
      refine ⟨?_, reachesDegrees_of_evaluate staysNonzero reaches⟩
      intro isZero
      exact staysNonzero (by rw [isZero, map_zero])

end MultivariatePolynomial

end PolyCore
