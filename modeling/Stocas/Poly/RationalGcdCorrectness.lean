import Stocas.Library.MonicDivision
import Stocas.Poly.GcdErrors
import Stocas.Poly.PrimeReduction
import Stocas.Poly.Univariate

namespace PolyCore

open GreatestCommonDivisor (IsGcd)
open NumericaCore (reconstruct reconstruct_one)
open Outcome (OnlyThrows accepts bind_eq_ok exists_of_accepts firstSuccess
  firstSuccess_eq_ok_iff ok_bind onlyThrows_bind onlyThrows_foldlM onlyThrows_ok)
open PrimeIntegral (integralAt mem_integralAt reduceAt)
open SymbolTable (Symbol)

/-!
# When the gcd over the rationals is right

The candidate found at a prime is monic, integral at the prime, and reduces to the
gcd of the reductions.  A gcd that is integral at the prime reduces to a common
divisor of the same degree and must be the candidate; one that is not is missed.
-/

namespace MultivariatePolynomial

variable {otherVars : ℕ} {vars : Fin (otherVars + 1) → Symbol}

/-- No coefficient has a denominator that the prime divides. -/
def IntegralAt
    {numVars : ℕ}
    (prime : ℕ)
    (poly : MvPolynomial (Fin numVars) ℚ) :
    Prop :=
  ∀ exponents, ¬ prime ∣ (poly.coeff exponents).den

/-- The first prime at which a candidate is accepted. -/
def acceptedPrime?
    (a b : MultivariatePolynomial vars ℚ) :
    Option {prime : ℕ // prime.Prime} :=
  kMultivariateGcdPrimes.find?
    (fun prime => accepts (@primeAttempt prime.1 (fact_prime prime) otherVars vars a b))

section Prime

variable {prime : ℕ} [Fact prime.Prime]

theorem mem_integralAt_iff
    {value : ℚ} :
    value ∈ integralAt prime ↔ ¬ prime ∣ value.den := by
  rw [mem_integralAt, Ne, ZMod.natCast_eq_zero_iff]

/-- The lifted inputs and candidate of an accepted attempt. -/
structure AcceptedLift
    (prime : ℕ)
    [Fact prime.Prime]
    {numVars : ℕ}
    (a b candidate : MvPolynomial (Fin numVars) ℚ) where
  left : MvPolynomial (Fin numVars) (integralAt prime)
  right : MvPolynomial (Fin numVars) (integralAt prime)
  lifted : MvPolynomial (Fin numVars) (integralAt prime)
  map_left : MvPolynomial.map (integralAt prime).subtype left = a
  map_right : MvPolynomial.map (integralAt prime).subtype right = b
  map_lifted : MvPolynomial.map (integralAt prime).subtype lifted = candidate
  monic : MonomialOrder.lex.Monic lifted
  isGcd :
    IsGcd (MvPolynomial.map (reduceAt prime) left) (MvPolynomial.map (reduceAt prime) right)
      (MvPolynomial.map (reduceAt prime) lifted)
  dvd_left : candidate ∣ a
  dvd_right : candidate ∣ b

/-- A candidate that is not zero comes from a gcd that is not zero. -/
theorem ne_zero_of_reconstructed
    {poly : MultivariatePolynomial vars (ZMod prime)}
    {candidate : MultivariatePolynomial vars ℚ}
    (returned : reconstructPolynomial prime poly = .ok (some candidate))
    (isNonzero : ¬ candidate.isZero = true) :
    poly.toMvPolynomial ≠ 0 := by
  intro isZero
  rw [reconstructPolynomial, toMvPolynomial_eq_zero_iff.mp isZero, reconstructTerms]
    at returned
  cases returned
  exact isNonzero rfl

/-- What an attempt accepts is lifted from the gcd of the reductions. -/
theorem primeAttempt_spec
    {a b candidate : MultivariatePolynomial vars ℚ}
    (kept : primeAttempt prime a b = .ok (some candidate)) :
    Nonempty
      (AcceptedLift prime a.toMvPolynomial b.toMvPolynomial
        candidate.toMvPolynomial) := by
  rw [primeAttempt, catchDomainError_eq_some] at kept
  obtain ⟨aMod, reducedA, kept⟩ := bind_eq_ok.mp kept
  obtain ⟨bMod, reducedB, kept⟩ := bind_eq_ok.mp kept
  obtain ⟨gcdMod, isGcdMod, kept⟩ := bind_eq_ok.mp kept
  obtain ⟨outcome, reconstructed, kept⟩ := bind_eq_ok.mp kept
  cases outcome with
  | none =>
      cases kept
  | some found =>
      dsimp only at kept
      split at kept
      · cases kept
      · rename_i foundNonzero
        obtain ⟨⟨quotientA, remainderA⟩, dividedA, kept⟩ := bind_eq_ok.mp kept
        dsimp only at kept
        split at kept
        · rename_i exactA
          obtain ⟨⟨quotientB, remainderB⟩, dividedB, kept⟩ := bind_eq_ok.mp kept
          dsimp only at kept
          split at kept
          · rename_i exactB
            cases kept
            obtain ⟨left, mapLeft, reduceLeft⟩ := reducePolynomialMod_spec reducedA
            obtain ⟨right, mapRight, reduceRight⟩ := reducePolynomialMod_spec reducedB
            have isMonicGcd :=
              finiteFieldMultivariateGcd_returnsGcds otherVars _ _ _ isGcdMod
            have monic := isMonicGcd.monic
              (ne_zero_of_reconstructed reconstructed foundNonzero)
            obtain ⟨lifted, mapLifted, reduceLifted, liftedMonic⟩ :=
              reconstructPolynomial_spec monic reconstructed
            exact ⟨{
              left := left
              right := right
              lifted := lifted
              map_left := mapLeft
              map_right := mapRight
              map_lifted := mapLifted
              monic := liftedMonic
              isGcd := by
                rw [reduceLeft, reduceRight, reduceLifted]
                exact isMonicGcd.toIsGcd
              dvd_left := (multivariateDivRem_ok dividedA).2.mp (isZero_iff.mp exactA)
              dvd_right := (multivariateDivRem_ok dividedB).2.mp (isZero_iff.mp exactB) }⟩
          · cases kept
        · cases kept

/-- An accepted candidate is not the gcd of zero and zero. -/
theorem AcceptedLift.ne_zero
    {numVars : ℕ}
    {a b candidate greatest : MvPolynomial (Fin numVars) ℚ}
    (accepted : AcceptedLift prime a b candidate)
    (isGcd : IsGcd a b greatest) :
    greatest ≠ 0 := by
  intro isZero
  have aZero : a = 0 := zero_dvd_iff.mp (isZero ▸ isGcd.dvd_left)
  have bZero : b = 0 := zero_dvd_iff.mp (isZero ▸ isGcd.dvd_right)
  have mapInjective :
      Function.Injective
        (MvPolynomial.map (integralAt prime).subtype :
          MvPolynomial (Fin numVars) (integralAt prime) →+* MvPolynomial (Fin numVars) ℚ) :=
    MvPolynomial.map_injective _ (PrimeIntegral.subtype_injective prime)
  have leftZero : accepted.left = 0 :=
    mapInjective (accepted.map_left.trans (aZero.trans (map_zero _).symm))
  have rightZero : accepted.right = 0 :=
    mapInjective (accepted.map_right.trans (bZero.trans (map_zero _).symm))
  have reduced := accepted.isGcd.greatest 0 (by rw [leftZero, map_zero])
    (by rw [rightZero, map_zero])
  exact (MonicDivision.monic_map (reduceAt prime) accepted.monic).ne_zero
    (zero_dvd_iff.mp reduced)

/-- What is lifted from the integral coefficients is integral. -/
theorem integralAt_map
    {numVars : ℕ}
    (lifted : MvPolynomial (Fin numVars) (integralAt prime)) :
    IntegralAt prime (MvPolynomial.map (integralAt prime).subtype lifted) := by
  intro exponents
  rw [← mem_integralAt_iff, MvPolynomial.coeff_map]
  exact (lifted.coeff exponents).2

/-- An accepted candidate is integral at the prime and monic. -/
theorem AcceptedLift.integralAt_candidate
    {numVars : ℕ}
    {a b candidate : MvPolynomial (Fin numVars) ℚ}
    (accepted : AcceptedLift prime a b candidate) :
    IntegralAt prime candidate := by
  rw [← accepted.map_lifted]
  exact integralAt_map accepted.lifted

/-- The candidate is the gcd exactly when the gcd is integral at the prime. -/
theorem AcceptedLift.isMonicGcd_iff
    {numVars : ℕ}
    {a b candidate : MvPolynomial (Fin numVars) ℚ}
    (accepted : AcceptedLift prime a b candidate) :
    IsMonicGcd a b candidate ↔
      ∃ greatest, IsMonicGcd a b greatest ∧ IntegralAt prime greatest := by
  constructor
  · intro isGcd
    exact ⟨candidate, isGcd, accepted.integralAt_candidate⟩
  · intro found
    obtain ⟨greatest, isGcd, integral⟩ := found
    obtain ⟨common, mapCommon⟩ :=
      PrimeIntegral.exists_map_eq prime
        (fun exponents => mem_integralAt_iff.mpr (integral exponents))
    have greatestMonic := isGcd.monic (accepted.ne_zero isGcd.toIsGcd)
    have commonMonic : MonomialOrder.lex.Monic common :=
      MonicDivision.monic_of_map (PrimeIntegral.subtype_injective prime)
        (mapCommon ▸ greatestMonic)
    have same : common = accepted.lifted := by
      refine MonicDivision.eq_of_isGcd_map (PrimeIntegral.subtype_injective prime)
        (reduceAt prime) accepted.monic commonMonic ?_ ?_ ?_ accepted.isGcd
      · rw [accepted.map_lifted, accepted.map_left]
        exact accepted.dvd_left
      · rw [accepted.map_lifted, accepted.map_right]
        exact accepted.dvd_right
      · rw [accepted.map_left, accepted.map_right, mapCommon]
        exact isGcd.toIsGcd
    rw [← accepted.map_lifted, ← same, mapCommon]
    exact isGcd

theorem onlyThrows_reduceRationalMod
    (value : ℚ) :
    OnlyThrows PolyError.IsDomainError (reduceRationalMod prime value) := by
  simp only [reduceRationalMod]
  split
  · intro error throws
    cases throws
    exact ⟨_, rfl⟩
  · exact onlyThrows_bind (onlyThrows_fieldInv _) (fun _ _ => onlyThrows_ok)

omit [Fact prime.Prime] in
theorem onlyThrows_reconstructTerms
    {numVars : ℕ}
    {vars : Fin numVars → Symbol}
    (result : MultivariatePolynomial vars ℚ)
    (terms : List (Term numVars (ZMod prime))) :
    OnlyThrows PolyError.IsDomainError (reconstructTerms prime result terms) := by
  induction terms generalizing result with
  | nil =>
      exact onlyThrows_ok
  | cons first rest inductionHypothesis =>
      rw [reconstructTerms]
      split
      · intro error throws
        cases throws
        exact ⟨_, rfl⟩
      · exact onlyThrows_ok
      · exact inductionHypothesis _

/-- Every error of an attempt is a domain error, and those are caught. -/
theorem onlyThrows_primeAttempt
    (a b : MultivariatePolynomial vars ℚ) :
    OnlyThrows (fun _ => False) (primeAttempt prime a b) := by
  have reductionThrows
      (poly : MultivariatePolynomial vars ℚ) :
      OnlyThrows PolyError.IsDomainError (reducePolynomialMod prime poly) :=
    onlyThrows_foldlM
      (fun _ _ => onlyThrows_bind (onlyThrows_reduceRationalMod _)
        (fun _ _ => onlyThrows_ok)) _ _
  refine catchDomainError_returns ?_
  refine onlyThrows_bind (reductionThrows a) ?_
  intro aMod _
  refine onlyThrows_bind (reductionThrows b) ?_
  intro bMod _
  refine onlyThrows_bind (onlyThrows_finiteFieldMultivariateGcd otherVars aMod bMod) ?_
  intro gcdMod _
  refine onlyThrows_bind (onlyThrows_reconstructTerms _ _) ?_
  intro outcome _
  cases outcome with
  | none =>
      exact onlyThrows_ok
  | some candidate =>
      dsimp only
      split
      · exact onlyThrows_ok
      · rename_i isNonzero
        have candidateNonzero : candidate.toMvPolynomial ≠ 0 :=
          fun isZero => isNonzero (isZero_iff.mpr isZero)
        refine onlyThrows_bind (onlyThrows_multivariateDivRem _ candidateNonzero) ?_
        intro divisionA _
        split
        · refine onlyThrows_bind (onlyThrows_multivariateDivRem _ candidateNonzero) ?_
          intro divisionB _
          split
          · exact onlyThrows_ok
          · exact onlyThrows_ok
        · exact onlyThrows_ok

end Prime

/-- At the accepted prime there is a candidate. -/
theorem exists_of_acceptedPrime?
    {a b : MultivariatePolynomial vars ℚ}
    {prime : {prime : ℕ // prime.Prime}}
    (accepted : acceptedPrime? a b = some prime) :
    ∃ candidate,
      @primeAttempt prime.1 (fact_prime prime) otherVars vars a b = .ok (some candidate) := by
  have attemptAccepts := List.find?_some accepted
  exact exists_of_accepts attemptAccepts

/-- No prime accepts a candidate for zero and zero. -/
theorem notBothZero_of_acceptedPrime?
    {a b : MultivariatePolynomial vars ℚ}
    {prime : {prime : ℕ // prime.Prime}}
    (accepted : acceptedPrime? a b = some prime) :
    ¬ (a.isZero && b.isZero) = true := by
  intro bothZero
  obtain ⟨aZero, bZero⟩ := Bool.and_eq_true_iff.mp bothZero
  obtain ⟨candidate, kept⟩ := exists_of_acceptedPrime? accepted
  obtain ⟨lift⟩ := @primeAttempt_spec _ _ prime.1 ⟨prime.2⟩ _ _ _ kept
  rw [isZero_iff.mp aZero, isZero_iff.mp bZero] at lift
  exact @AcceptedLift.ne_zero prime.1 ⟨prime.2⟩ _ _ _ _ _ lift (IsGcd.zero_left 0) rfl

/-- What is returned was accepted at the first accepted prime, unless the inputs are zero. -/
theorem rationalMultivariateGcd_eq_ok_iff
    {a b common : MultivariatePolynomial vars ℚ}
    (notBothZero : ¬ (a.isZero && b.isZero) = true) :
    rationalMultivariateGcd a b = .ok common ↔
      ∃ prime : {prime : ℕ // prime.Prime},
        acceptedPrime? a b = some prime ∧
        @primeAttempt prime.1 (fact_prime prime) otherVars vars a b = .ok (some common) := by
  rw [rationalMultivariateGcd, if_neg notBothZero]
  refine firstSuccess_eq_ok_iff ?_
  intro prime
  exact @onlyThrows_primeAttempt _ _ prime.1 ⟨prime.2⟩ a b

/-- A gcd that is integral at the accepted prime is the one that is returned. -/
theorem isMonicGcd_of_integralAt
    {a b common : MultivariatePolynomial vars ℚ}
    (integral :
      ∀ prime, acceptedPrime? a b = some prime →
        ∃ greatest,
          IsMonicGcd a.toMvPolynomial b.toMvPolynomial greatest ∧ IntegralAt prime greatest)
    (returned : rationalMultivariateGcd a b = .ok common) :
    IsMonicGcd a.toMvPolynomial b.toMvPolynomial common.toMvPolynomial := by
  by_cases bothZero : (a.isZero && b.isZero) = true
  · obtain ⟨aZero, bZero⟩ := Bool.and_eq_true_iff.mp bothZero
    rw [rationalMultivariateGcd, if_pos bothZero] at returned
    cases returned
    rw [isZero_iff.mp aZero, isZero_iff.mp bZero]
    exact ⟨IsGcd.zero_left 0, fun isNonzero => absurd rfl isNonzero⟩
  · obtain ⟨prime, accepted, kept⟩ :=
      (rationalMultivariateGcd_eq_ok_iff bothZero).mp returned
    obtain ⟨lift⟩ := @primeAttempt_spec _ _ prime.1 ⟨prime.2⟩ _ _ _ kept
    exact (@AcceptedLift.isMonicGcd_iff prime.1 ⟨prime.2⟩ _ _ _ _ lift).mpr
      (integral prime accepted)

/--
The monic gcd is returned when each listed prime that divides no denominator of the inputs
divides no denominator of the monic gcd.
-/
theorem rationalMultivariateGcd_isMonicGcd
    {a b common : MultivariatePolynomial vars ℚ}
    {greatest : MvPolynomial (Fin (otherVars + 1)) ℚ}
    (isGcd : IsMonicGcd a.toMvPolynomial b.toMvPolynomial greatest)
    (integral :
      ∀ prime ∈ kMultivariateGcdPrimes,
        IntegralAt prime a.toMvPolynomial →
        IntegralAt prime b.toMvPolynomial →
        IntegralAt prime greatest)
    (returned : rationalMultivariateGcd a b = .ok common) :
    IsMonicGcd a.toMvPolynomial b.toMvPolynomial common.toMvPolynomial := by
  refine isMonicGcd_of_integralAt ?_ returned
  intro prime accepted
  obtain ⟨candidate, kept⟩ := exists_of_acceptedPrime? accepted
  obtain ⟨lift⟩ := @primeAttempt_spec _ _ prime.1 ⟨prime.2⟩ _ _ _ kept
  refine ⟨greatest, isGcd, integral prime (List.mem_of_find?_eq_some accepted) ?_ ?_⟩
  · rw [← @AcceptedLift.map_left prime.1 ⟨prime.2⟩ _ _ _ _ lift]
    exact @integralAt_map prime.1 ⟨prime.2⟩ _ _
  · rw [← @AcceptedLift.map_right prime.1 ⟨prime.2⟩ _ _ _ _ lift]
    exact @integralAt_map prime.1 ⟨prime.2⟩ _ _

/-- What is returned for `x^2 - 1` and `x + 1` is their monic gcd, `x + 1`. -/
theorem rationalMultivariateGcd_differenceOfSquares :
    ∀ common : MultivariatePolynomial oneVariable ℚ,
      rationalMultivariateGcd
          (fromTerm (Monomial.single 0 2) 1 + constant (-1))
          (fromTerm (Monomial.single 0 1) 1 + constant 1) =
        .ok common →
      IsMonicGcd (MvPolynomial.X 0 ^ 2 - 1) (MvPolynomial.X 0 + 1) common.toMvPolynomial := by
  intro common returned
  have square :
      (fromTerm (Monomial.single 0 2) 1 + constant (-1) :
        MultivariatePolynomial oneVariable ℚ).toMvPolynomial = MvPolynomial.X 0 ^ 2 - 1 := by
    rw [toMvPolynomial_add, toMvPolynomial_fromTerm, toFinsupp_single,
      toMvPolynomial_constant, ← MvPolynomial.X_pow_eq_monomial, map_neg, map_one,
      sub_eq_add_neg]
  have linear :
      (fromTerm (Monomial.single 0 1) 1 + constant 1 :
        MultivariatePolynomial oneVariable ℚ).toMvPolynomial = MvPolynomial.X 0 + 1 := by
    rw [toMvPolynomial_add, toMvPolynomial_fromTerm, toFinsupp_single,
      toMvPolynomial_constant, ← MvPolynomial.X_pow_eq_monomial, pow_one, MvPolynomial.C_1]
  have integral : ∀ prime ∈ kMultivariateGcdPrimes,
      IntegralAt prime.1 (MvPolynomial.X 0 + 1 : MvPolynomial (Fin 1) ℚ) := by
    intro prime _ exponents divides
    have isOne : ((MvPolynomial.X 0 + 1 : MvPolynomial (Fin 1) ℚ).coeff exponents).den = 1 := by
      rw [MvPolynomial.coeff_add, MvPolynomial.coeff_X, MvPolynomial.coeff_one]
      split_ifs <;> norm_num
    rw [isOne] at divides
    exact prime.2.one_lt.ne' (Nat.dvd_one.mp divides)
  have monic : MonomialOrder.lex.Monic (MvPolynomial.X 0 + 1 : MvPolynomial (Fin 1) ℚ) := by
    rw [← MvPolynomial.C_1]
    exact MonomialOrder.lex.monic_X_add_C 0 (1 : ℚ)
  have isGcd := @rationalMultivariateGcd_isMonicGcd _ _ _ _ _ (MvPolynomial.X 0 + 1) ?_
    (fun prime listed _ _ => integral prime listed) returned
  · rwa [square, linear] at isGcd
  · rw [square, linear]
    refine ⟨⟨?_, dvd_rfl, fun _ _ divides => divides⟩, fun _ => monic⟩
    exact ⟨MvPolynomial.X 0 - 1, by ring⟩

/--
What `rational_multivariate_gcd` returns is the monic greatest common divisor exactly
when the prime at which it was found divides no denominator of that divisor.
-/
theorem rationalMultivariateGcd_correct_iff
    (a b : MultivariatePolynomial vars ℚ) :
    (∀ common, rationalMultivariateGcd a b = .ok common →
        IsMonicGcd a.toMvPolynomial b.toMvPolynomial common.toMvPolynomial) ↔
      ∀ prime, acceptedPrime? a b = some prime →
        ∃ greatest,
          IsMonicGcd a.toMvPolynomial b.toMvPolynomial greatest ∧
          IntegralAt prime greatest := by
  constructor
  · intro correct prime accepted
    obtain ⟨candidate, kept⟩ := exists_of_acceptedPrime? accepted
    have returned : rationalMultivariateGcd a b = .ok candidate :=
      (rationalMultivariateGcd_eq_ok_iff (notBothZero_of_acceptedPrime? accepted)).mpr
        ⟨prime, accepted, kept⟩
    obtain ⟨lift⟩ := @primeAttempt_spec _ _ prime.1 ⟨prime.2⟩ _ _ _ kept
    exact (@AcceptedLift.isMonicGcd_iff prime.1 ⟨prime.2⟩ _ _ _ _ lift).mp
      (correct candidate returned)
  · intro integral common returned
    exact isMonicGcd_of_integralAt integral returned

/-- `p * x + 1` for the first prime of `kMultivariateGcdPrimes`. -/
def vanishingLinear : MultivariatePolynomial oneVariable ℚ :=
  fromTerm (Monomial.single 0 1) 2147483647 + constant 1

theorem terms_vanishingLinear :
    vanishingLinear.terms = [(Monomial.single 0 1, 2147483647), (1, 1)] := by
  decide +kernel

/-- Modulo the first prime the polynomial is the constant one. -/
theorem reduce_vanishingLinear
    [Fact (Nat.Prime 2147483647)] :
    reducePolynomialMod 2147483647 vanishingLinear = .ok (constant 1) := by
  have leading : reduceRationalMod 2147483647 2147483647 = .ok 0 := by
    rw [reduceRationalMod_eq (by simp), Rat.cast_ofNat]
    exact congrArg Except.ok (ZMod.natCast_self 2147483647)
  have last : reduceRationalMod 2147483647 1 = .ok 1 := by
    rw [reduceRationalMod_eq (by simp), Rat.cast_one]
  rw [reducePolynomialMod, terms_vanishingLinear]
  simp only [List.foldlM_cons, List.foldlM_nil, leading, last, ok_bind]
  refine congrArg Except.ok (toMvPolynomial_injective ?_)
  simp

/-- The gcd of one and one in one variable is one. -/
theorem finiteFieldMultivariateGcd_one
    {K : Type}
    [Field K]
    [DecidableEq K]
    [FieldErrors K]
    {vars : Fin 1 → Symbol} :
    finiteFieldMultivariateGcd 0 (constant 1 : MultivariatePolynomial vars K) (constant 1) =
      .ok (constant 1) := by
  obtain ⟨common, returns, isMonicGcd⟩ :=
    gcdOfUnivariate_spec (constant 1 : MultivariatePolynomial vars K) (constant 1)
  have notZero : (constant 1 : MultivariatePolynomial vars K).isZero ≠ true := by
    intro isZero
    have value := isZero_iff.mp isZero
    simp at value
  have isOne : common = constant 1 := by
    have divides : common.toMvPolynomial ∣ 1 := by
      simpa using isMonicGcd.dvd_left
    have monic := isMonicGcd.monic (ne_zero_of_dvd_ne_zero one_ne_zero divides)
    have same :=
      MonicDivision.eq_of_dvd_of_degree_le monic MonomialOrder.monic_one divides (by simp)
    refine toMvPolynomial_injective ?_
    simpa using same.symm
  rw [finiteFieldMultivariateGcd, unlessZero, if_neg notZero, if_neg notZero, returns, isOne]

/-- The constant one is reconstructed as the constant one. -/
theorem reconstructPolynomial_one
    {prime : ℕ}
    [isPrime : Fact prime.Prime]
    {numVars : ℕ}
    {vars : Fin numVars → Symbol} :
    reconstructPolynomial prime
        (constant 1 : MultivariatePolynomial vars (ZMod prime)) =
      .ok (some (constant 1)) := by
  have terms :
      (constant 1 : MultivariatePolynomial vars (ZMod prime)).terms = [(1, 1)] :=
    terms_fromTerm one_ne_zero
  have large : Fact (1 < prime) := ⟨isPrime.out.one_lt⟩
  have found : reconstruct ((1 : ZMod prime).val : ℕ) prime none = .ok (some 1) := by
    rw [ZMod.val_one]
    exact reconstruct_one isPrime.out.two_le
  rw [reconstructPolynomial, terms, reconstructTerms, found]
  dsimp only
  rw [reconstructTerms]
  refine congrArg (fun result => Except.ok (some result)) (toMvPolynomial_injective ?_)
  simp

/-- At the first prime the constant one is accepted. -/
theorem primeAttempt_vanishingLinear
    [Fact (Nat.Prime 2147483647)] :
    primeAttempt 2147483647 vanishingLinear vanishingLinear = .ok (some (constant 1)) := by
  have oneNonzero :
      (constant 1 : MultivariatePolynomial oneVariable ℚ).toMvPolynomial ≠ 0 := by
    simp
  obtain ⟨quotient, remainder, divided, _, exact_iff⟩ :=
    multivariateDivRem_spec vanishingLinear oneNonzero
  have exact : remainder.isZero = true := by
    refine isZero_iff.mpr (exact_iff.mpr ?_)
    simp
  have notZero : ¬ (constant 1 : MultivariatePolynomial oneVariable ℚ).isZero = true :=
    fun isZero => oneNonzero (isZero_iff.mp isZero)
  rw [primeAttempt, catchDomainError_eq_some]
  simp only [reduce_vanishingLinear, finiteFieldMultivariateGcd_one, ok_bind,
    reconstructPolynomial_one, if_neg notZero, divided, if_pos exact]

/--
The gcd of `p * x + 1` with itself is `x + 1 / p`, but the constant one is returned:
modulo `p` the polynomial is one, and one divides it.
-/
theorem rationalMultivariateGcd_vanishingLinear :
    rationalMultivariateGcd vanishingLinear vanishingLinear = .ok (constant 1) ∧
      ¬ IsMonicGcd vanishingLinear.toMvPolynomial vanishingLinear.toMvPolynomial
        (constant 1 : MultivariatePolynomial oneVariable ℚ).toMvPolynomial := by
  constructor
  · have notZero : ¬ (vanishingLinear.isZero && vanishingLinear.isZero) = true := by
      decide +kernel
    have kept := @primeAttempt_vanishingLinear ⟨prime_mersenne31⟩
    rw [rationalMultivariateGcd, if_neg notZero, kMultivariateGcdPrimes, firstSuccess]
    simp only [kept, ok_bind]
  · intro isGcd
    have divides : vanishingLinear.toMvPolynomial ∣ 1 := by
      simpa using isGcd.greatest _ dvd_rfl dvd_rfl
    obtain ⟨cofactor, product⟩ := divides
    have factorsNonzero : vanishingLinear.toMvPolynomial ≠ 0 ∧ cofactor ≠ 0 :=
      mul_ne_zero_iff.mp (product ▸ one_ne_zero)
    have degrees := congrArg MonomialOrder.lex.degree product
    rw [MonomialOrder.degree_mul factorsNonzero.1 factorsNonzero.2,
      degree_leading terms_vanishingLinear, MonomialOrder.degree_one] at degrees
    have leading := DFunLike.congr_fun degrees 0
    simp only [Finsupp.coe_zero, Pi.zero_apply, Finsupp.coe_add, Pi.add_apply,
      Monomial.toFinsupp_apply, Monomial.single, if_pos] at leading
    omega

end MultivariatePolynomial

end PolyCore
