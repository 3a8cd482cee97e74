import Stocas.Poly.GcdCorrectness
import Stocas.Poly.MachineRemainder
import Stocas.Poly.RationalPolynomial

namespace PolyCore

open MachinePolynomial (constant)
open Outcome (bind_eq_ok exists_of_firstSuccess firstSuccess map_firstSuccess)
open SymbolTable (Symbol)

/-!
# The check of a gcd candidate

`rational_multivariate_gcd` returns a candidate only if it divides both inputs.  Where
the candidate comes from does not matter here: reduction modulo a prime, the gcd over
the prime field and reconstruction are one function of the prime and the inputs.  With
the candidates and the divisions of unbounded exponents it is the gcd of those.
-/

namespace MachinePolynomial

variable {numVars : ℕ} {vars : Fin numVars → Symbol}

/-- What a prime gives for two inputs: a candidate, none, or an exception. -/
abbrev GcdCandidate {numVars : ℕ} (vars : Fin numVars → Symbol) :=
  {prime : ℕ // prime.Prime} →
    MachinePolynomial vars ℚ → MachinePolynomial vars ℚ →
      Except PolyError (Option (MachinePolynomial vars ℚ))

/-- The checks of one round of the loop of `rational_multivariate_gcd`. -/
def checkCandidate
    (a b : MachinePolynomial vars ℚ) :
    Option (MachinePolynomial vars ℚ) →
      Except PolyError (Option (MachinePolynomial vars ℚ))
  | none => .ok none
  | some candidate =>
      if candidate.isZero then
        .ok none
      else do
        let (_, remainderA) ← multivariateDivRem a candidate
        if remainderA.isZero then do
          let (_, remainderB) ← multivariateDivRem b candidate
          if remainderB.isZero then
            .ok (some candidate)
          else
            .ok none
        else
          .ok none

/-- `rational_multivariate_gcd`. -/
def rationalMultivariateGcd
    (gcdCandidate : GcdCandidate vars)
    (a b : MachinePolynomial vars ℚ) :
    Except PolyError (MachinePolynomial vars ℚ) :=
  if a.isZero && b.isZero then
    .ok 0
  else
    firstSuccess
      (.runtimeError
        ("poly_core::rational_multivariate_gcd: failed to compute a verified gcd " ++
          "(exhausted kMultivariateGcdPrimes)"))
      (fun prime =>
        MultivariatePolynomial.catchDomainError do
          checkCandidate a b (← gcdCandidate prime a b))
      kMultivariateGcdPrimes

theorem eq_of_toMvPolynomial_eq
    {left right : MachinePolynomial vars ℚ}
    (same : left.toMvPolynomial = right.toMvPolynomial) :
    left = right :=
  ext_polynomial (MultivariatePolynomial.toMvPolynomial_injective same)

theorem constant_ne_zero
    {value : ℚ}
    (nonzero : value ≠ 0) :
    (constant value : MachinePolynomial vars ℚ).toMvPolynomial ≠ 0 := by
  rw [toMvPolynomial_constant]
  exact (map_ne_zero_iff _ (MvPolynomial.C_injective _ _)).mpr nonzero

theorem isZero_constant
    {value : ℚ}
    (nonzero : value ≠ 0) :
    (constant value : MachinePolynomial vars ℚ).isZero = false := by
  apply Bool.eq_false_iff.mpr
  intro isZero
  exact constant_ne_zero nonzero (MultivariatePolynomial.isZero_iff.mp isZero)

theorem constant_not_isZero
    {value : ℚ}
    (nonzero : value ≠ 0) :
    ¬ (constant value : MachinePolynomial vars ℚ).isZero = true := by
  rw [isZero_constant nonzero]
  exact Bool.false_ne_true

/-- Below the monomial one there is no other. -/
theorem eq_constant_of_leading
    {poly : MachinePolynomial vars ℚ}
    {leading : Term numVars ℚ}
    {others : List (Term numVars ℚ)}
    (shape : poly.terms = leading :: others)
    (isOne : leading.1 = 1) :
    poly = constant leading.2 := by
  have below := (List.pairwise_cons.mp (shape ▸ poly.descending)).1
  have alone : others = [] := by
    apply List.eq_nil_iff_forall_not_mem.mpr
    intro other member
    obtain ⟨index, _, less⟩ := below other member
    rw [isOne] at less
    exact absurd less (Nat.not_lt_zero _)
  apply eq_of_toMvPolynomial_eq
  rw [toMvPolynomial_constant, MultivariatePolynomial.toMvPolynomial, shape, alone,
    MultivariatePolynomial.termsValue_cons, MultivariatePolynomial.termsValue_nil, add_zero,
    isOne, Monomial.toFinsupp_one]
  rfl

/-- Only a constant leaves no remainder in one. -/
theorem exists_constant_of_divides_one
    {divisor quotient remainder : MachinePolynomial vars ℚ}
    (nonzero : divisor.toMvPolynomial ≠ 0)
    (divided : multivariateDivRem (constant 1) divisor = .ok (quotient, remainder))
    (exact : remainder.isZero = true) :
    ∃ value, value ≠ 0 ∧ divisor = constant value := by
  obtain ⟨leading, others, shape⟩ := MultivariatePolynomial.exists_leading nonzero
  by_cases divides : leading.1.Divides 1
  · have isOne : leading.1 = 1 := by
      apply Monomial.ext
      funext index
      exact Nat.le_zero.mp (divides index)
    exact ⟨leading.2, MultivariatePolynomial.leading_ne_zero shape,
      eq_constant_of_leading shape isOne⟩
  · -- Otherwise the whole dividend goes to the remainder.
    have whole :
        multivariateDivRem (constant 1 : MachinePolynomial vars ℚ) divisor =
          .ok (0, constant 1) := by
      apply multivariateDivRem_eq nonzero
      · exact wrapped_injective (by simp)
      · exact everyMonomial_zero
      · apply everyMonomial_fromTerm
        intro first rest sameShape
        have same := shape.symm.trans sameShape
        cases same
        exact divides
    rw [whole] at divided
    cases divided
    exact absurd exact (constant_not_isZero one_ne_zero)

/-- Dividing by a constant scales. -/
theorem multivariateDivRem_constant
    (poly : MachinePolynomial vars ℚ)
    {value : ℚ}
    (nonzero : value ≠ 0) :
    multivariateDivRem poly (constant value) = .ok (poly * constant value⁻¹, 0) := by
  have scaled :
      (poly * constant value⁻¹).toMvPolynomial *
          (constant value : MachinePolynomial vars ℚ).toMvPolynomial =
        poly.toMvPolynomial := by
    rw [toMvPolynomial_mul_constant, toMvPolynomial_constant, mul_assoc, ← map_mul,
      inv_mul_cancel₀ nonzero, map_one, mul_one]
  obtain ⟨quotient, divided, product⟩ :=
    multivariateDivRem_exact (constant_ne_zero nonzero) (Dvd.intro_left _ scaled)
  have isQuotient : quotient = poly * constant value⁻¹ :=
    eq_of_toMvPolynomial_eq
      (mul_right_cancel₀ (constant_ne_zero nonzero) (product.trans scaled.symm))
  rw [divided, isQuotient]

/-- A checked candidate leaves no remainder in the second input. -/
theorem checkCandidate_eq_some
    {a b common : MachinePolynomial vars ℚ}
    {candidate : Option (MachinePolynomial vars ℚ)}
    (accepted : checkCandidate a b candidate = .ok (some common)) :
    common.toMvPolynomial ≠ 0 ∧
      ∃ quotient remainder,
        multivariateDivRem b common = .ok (quotient, remainder) ∧
          remainder.isZero = true := by
  cases candidate with
  | none =>
      cases accepted
  | some candidate =>
      rw [checkCandidate] at accepted
      by_cases isZero : candidate.isZero = true
      · rw [if_pos isZero] at accepted
        cases accepted
      · rw [if_neg isZero] at accepted
        obtain ⟨⟨_, remainderA⟩, _, accepted⟩ := bind_eq_ok.mp accepted
        by_cases exactA : remainderA.isZero = true
        · simp only [exactA, if_true] at accepted
          obtain ⟨⟨quotient, remainder⟩, divided, accepted⟩ := bind_eq_ok.mp accepted
          by_cases exact : remainder.isZero = true
          · simp only [exact, if_true, Except.ok.injEq, Option.some.injEq] at accepted
            subst accepted
            exact ⟨fun noTerms => isZero (MultivariatePolynomial.isZero_iff.mpr noTerms),
              quotient, remainder, divided, exact⟩
          · simp [exact] at accepted
        · simp [exactA] at accepted

/-- Whatever the candidates are, the gcd with one is a constant. -/
theorem rationalMultivariateGcd_one
    {gcdCandidate : GcdCandidate vars}
    {a common : MachinePolynomial vars ℚ}
    (returned : rationalMultivariateGcd gcdCandidate a (constant 1) = .ok common) :
    ∃ value, value ≠ 0 ∧ common = constant value := by
  have oneNonzero : (constant 1 : MachinePolynomial vars ℚ).isZero = false :=
    isZero_constant one_ne_zero
  rw [rationalMultivariateGcd, oneNonzero, Bool.and_false,
    if_neg Bool.false_ne_true] at returned
  obtain ⟨prime, _, attempted⟩ := exists_of_firstSuccess returned
  rw [MultivariatePolynomial.catchDomainError_eq_some] at attempted
  obtain ⟨candidate, _, accepted⟩ := bind_eq_ok.mp attempted
  obtain ⟨nonzero, quotient, remainder, divided, exact⟩ := checkCandidate_eq_some accepted
  exact exists_constant_of_divides_one nonzero divided exact

/-- The candidate one is accepted for all inputs. -/
theorem rationalMultivariateGcd_of_candidate_one
    (a : MachinePolynomial vars ℚ)
    {b : MachinePolynomial vars ℚ}
    (nonzero : b.isZero = false) :
    rationalMultivariateGcd (fun _ _ _ => .ok (some (constant 1))) a b =
      .ok (constant 1) := by
  have accepted : checkCandidate a b (some (constant 1)) = .ok (some (constant 1)) := by
    have zeroRemainder : (0 : MachinePolynomial vars ℚ).isZero = true := rfl
    rw [checkCandidate, if_neg (constant_not_isZero one_ne_zero)]
    simp only [multivariateDivRem_constant _ one_ne_zero, Outcome.ok_bind, zeroRemainder,
      if_true]
  rw [rationalMultivariateGcd, nonzero, Bool.and_false, if_neg Bool.false_ne_true,
    kMultivariateGcdPrimes, firstSuccess, Outcome.ok_bind, accepted]
  rfl

section Unbounded

variable {otherVars : ℕ} {vars : Fin (otherVars + 1) → Symbol}

/-- The candidate that a prime gives when exponents are unbounded. -/
def unboundedCandidate
    (prime : {prime : ℕ // prime.Prime})
    (a b : MultivariatePolynomial vars ℚ) :
    Except PolyError (Option (MultivariatePolynomial vars ℚ)) :=
  haveI := MultivariatePolynomial.fact_prime prime
  do
    let aMod ← MultivariatePolynomial.reducePolynomialMod prime.1 a
    let bMod ← MultivariatePolynomial.reducePolynomialMod prime.1 b
    let gcdMod ← MultivariatePolynomial.finiteFieldMultivariateGcd otherVars aMod bMod
    MultivariatePolynomial.reconstructPolynomial prime.1 gcdMod

open scoped Classical in
/-- A candidate that is not zero is kept when it divides both inputs. -/
noncomputable def keepDivisor
    (a b : MultivariatePolynomial vars ℚ)
    (candidate : MultivariatePolynomial vars ℚ) :
    Option (MultivariatePolynomial vars ℚ) :=
  if candidate.isZero = false ∧ candidate.toMvPolynomial ∣ a.toMvPolynomial ∧
      candidate.toMvPolynomial ∣ b.toMvPolynomial then
    some candidate
  else
    none

/-- The two divisions of a round keep a nonzero common divisor. -/
private theorem keepDivisor_divides
    (a b candidate : MultivariatePolynomial vars ℚ) :
    (if candidate.isZero then
      .ok none
    else do
      let (_, remainderA) ← MultivariatePolynomial.multivariateDivRem a candidate
      if remainderA.isZero then do
        let (_, remainderB) ← MultivariatePolynomial.multivariateDivRem b candidate
        if remainderB.isZero then
          .ok (some candidate)
        else
          .ok none
      else
        .ok none : Except PolyError (Option (MultivariatePolynomial vars ℚ))) =
      .ok (keepDivisor a b candidate) := by
  by_cases isZero : candidate.isZero = true
  · simp [keepDivisor, isZero]
  · have nonzero := Bool.eq_false_iff.mpr isZero
    have denotesNonzero : candidate.toMvPolynomial ≠ 0 :=
      fun noTerms => isZero (MultivariatePolynomial.isZero_iff.mpr noTerms)
    obtain ⟨_, remainderA, dividedA, _, testA⟩ :=
      MultivariatePolynomial.multivariateDivRem_spec a denotesNonzero
    obtain ⟨_, remainderB, dividedB, _, testB⟩ :=
      MultivariatePolynomial.multivariateDivRem_spec b denotesNonzero
    rw [← MultivariatePolynomial.isZero_iff] at testA testB
    simp only [dividedA, dividedB, Outcome.ok_bind, keepDivisor, nonzero, ← testA, ← testB]
    cases remainderA.isZero <;> cases remainderB.isZero <;> rfl

/-- With unbounded exponents a round keeps the candidates that divide both inputs. -/
theorem primeAttempt_eq
    (prime : {prime : ℕ // prime.Prime})
    (a b : MultivariatePolynomial vars ℚ) :
    @MultivariatePolynomial.primeAttempt prime.1 (MultivariatePolynomial.fact_prime prime)
        otherVars vars a b =
      MultivariatePolynomial.catchDomainError
        ((unboundedCandidate prime a b).map fun found => found.bind (keepDivisor a b)) := by
  have := MultivariatePolynomial.fact_prime prime
  rw [MultivariatePolynomial.primeAttempt, unboundedCandidate]
  congr 1
  cases MultivariatePolynomial.reducePolynomialMod prime.1 a with
  | error error =>
      rfl
  | ok aMod =>
      cases MultivariatePolynomial.reducePolynomialMod prime.1 b with
      | error error =>
          rfl
      | ok bMod =>
          simp only [Outcome.ok_bind]
          cases MultivariatePolynomial.finiteFieldMultivariateGcd otherVars aMod bMod with
          | error error =>
              rfl
          | ok gcdMod =>
              simp only [Outcome.ok_bind]
              cases MultivariatePolynomial.reconstructPolynomial prime.1 gcdMod with
              | error error =>
                  rfl
              | ok found =>
                  cases found with
                  | none =>
                      rfl
                  | some candidate =>
                      exact keepDivisor_divides a b candidate

/-- With 32-bit exponents the check keeps them where the divisions are exact tests. -/
theorem checkCandidate_eq
    {a b : MachinePolynomial vars ℚ}
    {candidate : Option (MachinePolynomial vars ℚ)}
    (tested :
      ∀ found ∈ candidate, found.isZero = false →
        IsExactDivisionTest a found ∧ IsExactDivisionTest b found) :
    (checkCandidate a b candidate).map (Option.map toMultivariatePolynomial) =
      .ok ((candidate.map toMultivariatePolynomial).bind
        (keepDivisor a.toMultivariatePolynomial b.toMultivariatePolynomial)) := by
  cases candidate with
  | none =>
      rfl
  | some found =>
      by_cases isZero : found.isZero = true
      · simp [checkCandidate, keepDivisor, isZero, Except.map]
      · have nonzero := Bool.eq_false_iff.mpr isZero
        obtain ⟨⟨_, remainderA, dividedA, testA, _⟩, _, remainderB, dividedB, testB, _⟩ :=
          tested found rfl nonzero
        rw [← dvd_iff_exists_eq_mul_left] at testA testB
        simp only [checkCandidate, dividedA, dividedB, Outcome.ok_bind, keepDivisor, nonzero,
          Option.map_some, Option.bind_some, ← testA, ← testB]
        cases remainderA.isZero <;> cases remainderB.isZero <;> rfl

/-- An exception is turned into no result, also before the result is mapped. -/
theorem map_catchDomainError
    {α β : Type}
    (outcome : Except PolyError (Option α))
    (function : α → β) :
    (MultivariatePolynomial.catchDomainError outcome).map (Option.map function) =
      MultivariatePolynomial.catchDomainError (outcome.map (Option.map function)) := by
  cases outcome with
  | ok found =>
      rfl
  | error error =>
      cases error <;> rfl

/--
Where the candidates are those without wrapping, and the divisions by them exact tests,
the gcd is the one with unbounded exponents.
-/
theorem rationalMultivariateGcd_eq
    {gcdCandidate : GcdCandidate vars}
    {a b : MachinePolynomial vars ℚ}
    (candidates :
      ∀ prime,
        (gcdCandidate prime a b).map (Option.map toMultivariatePolynomial) =
          unboundedCandidate prime a.toMultivariatePolynomial b.toMultivariatePolynomial)
    (tested :
      ∀ prime found,
        gcdCandidate prime a b = .ok (some found) →
          found.isZero = false →
          IsExactDivisionTest a found ∧ IsExactDivisionTest b found) :
    (rationalMultivariateGcd gcdCandidate a b).map toMultivariatePolynomial =
      MultivariatePolynomial.rationalMultivariateGcd a.toMultivariatePolynomial
        b.toMultivariatePolynomial := by
  rw [rationalMultivariateGcd, MultivariatePolynomial.rationalMultivariateGcd]
  split_ifs with bothZero
  · rfl
  · refine map_firstSuccess (fun prime => ?_) kMultivariateGcdPrimes
    rw [primeAttempt_eq, map_catchDomainError, ← candidates prime]
    congr 1
    cases attempted : gcdCandidate prime a b with
    | error error =>
        rfl
    | ok candidate =>
        exact checkCandidate_eq fun found isFound =>
          tested prime found (attempted.trans (congrArg Except.ok isFound))

/-- In one variable every division is an exact test. -/
theorem rationalMultivariateGcd_eq_oneVariable
    {single : Fin 1 → Symbol}
    {gcdCandidate : GcdCandidate single}
    {a b : MachinePolynomial single ℚ}
    (candidates :
      ∀ prime,
        (gcdCandidate prime a b).map (Option.map toMultivariatePolynomial) =
          unboundedCandidate prime a.toMultivariatePolynomial b.toMultivariatePolynomial) :
    (rationalMultivariateGcd gcdCandidate a b).map toMultivariatePolynomial =
      MultivariatePolynomial.rationalMultivariateGcd a.toMultivariatePolynomial
        b.toMultivariatePolynomial :=
  rationalMultivariateGcd_eq candidates fun _ _ _ nonzero =>
    ⟨isExactDivisionTest_oneVariable a nonzero, isExactDivisionTest_oneVariable b nonzero⟩

end Unbounded

end MachinePolynomial

/-- Over the denominator one, the constructor returns the numerator unchanged. -/
theorem lowestTerms_one
    {numVars : ℕ}
    {vars : Fin numVars → Symbol}
    {gcd :
      MachinePolynomial vars ℚ → MachinePolynomial vars ℚ →
        Except PolyError (MachinePolynomial vars ℚ)}
    {numerator : MachinePolynomial vars ℚ}
    {value : ℚ}
    (nonzero : value ≠ 0)
    (returned : gcd numerator (constant 1) = .ok (constant value)) :
    lowestTerms gcd numerator (constant 1) = .ok (numerator, constant 1) := by
  have inverseNonzero := inv_ne_zero nonzero
  have restored :
      ∀ poly : MachinePolynomial vars ℚ,
        poly * constant value⁻¹ * constant value⁻¹⁻¹ = poly := by
    intro poly
    apply MachinePolynomial.eq_of_toMvPolynomial_eq
    rw [MachinePolynomial.toMvPolynomial_mul_constant,
      MachinePolynomial.toMvPolynomial_mul_constant, mul_assoc, ← map_mul,
      mul_inv_cancel₀ inverseNonzero, map_one, mul_one]
  have scaledOne :
      constant 1 * constant value⁻¹ = (constant value⁻¹ : MachinePolynomial vars ℚ) :=
    MachinePolynomial.ringLaws.one_mul _
  have isLeading :
      (constant value⁻¹ : MachinePolynomial vars ℚ).leadingTerm = .ok (1, value⁻¹) := by
    have shape :
        (constant value⁻¹ : MachinePolynomial vars ℚ).terms = [(1, value⁻¹)] :=
      MultivariatePolynomial.terms_fromTerm inverseNonzero
    rw [MultivariatePolynomial.leadingTerm, MultivariatePolynomial.leadingTerm?, shape]
    rfl
  have isScale : fieldInv value⁻¹ = .ok value⁻¹⁻¹ :=
    fieldInv_eq_ok.mpr ⟨inverseNonzero, rfl⟩
  rw [lowestTerms, if_neg (MachinePolynomial.constant_not_isZero one_ne_zero), returned]
  simp only [Outcome.ok_bind, MachinePolynomial.multivariateDivRem_constant _ nonzero,
    scaledOne, isLeading, isScale]
  rw [restored, ← scaledOne, restored]

end PolyCore
