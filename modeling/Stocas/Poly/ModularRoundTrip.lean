import Mathlib.Tactic.NormNum.Prime
import Stocas.Numerica.FiniteField
import Stocas.Numerica.Reconstruction
import Stocas.Poly.PrimeReduction

namespace PolyCore

open NumericaCore (FiniteField FindsSmallFraction exists_default_bound finds_of_bound isqrt
  isqrt_eq_sqrt reconstruct)
open Outcome (ok_bind)
open SmallFraction (IsSmall)
open SymbolTable (Symbol)

/-!
# Reduction modulo a prime and back, in machine words

`FiniteFieldRing<uint64_t>` over its machine words.  Coefficients whose numerators and
denominators stay within the default bound come back unchanged.
-/

instance {prime : BitVec 64} : FieldErrors (FiniteField prime) where
  inverseOfZero := "FiniteField: zero has no multiplicative inverse"

namespace WordField

variable (prime : BitVec 64) [isPrime : Fact prime.toNat.Prime]

/-- `BigInt(static_cast<std::int64_t>(word))`. -/
def bigIntOfWord (word : BitVec 64) : ℤ :=
  word.toInt

/-- `reduce_rational_mod`. -/
def reduceRationalMod (value : ℚ) : Except PolyError (FiniteField prime) :=
  let modulus := bigIntOfWord prime
  let numeratorResidue := canonicalResidue value.num modulus
  let denominatorResidue := canonicalResidue value.den modulus
  let denominatorU64 := BitVec.ofNat 64 (bigintToU64 denominatorResidue)
  if denominatorU64 = 0 then
    .error (.domainError "poly_core: unlucky prime (a denominator vanishes mod p)")
  else do
    let numeratorFf : FiniteField prime :=
      .ofValue (BitVec.ofNat 64 (bigintToU64 numeratorResidue))
    let denominatorFf : FiniteField prime := .ofValue denominatorU64
    let inverse ← fieldInv denominatorFf
    .ok (numeratorFf * inverse)

variable {numVars : ℕ} {vars : Fin numVars → Symbol}

/-- `reduce_polynomial_mod`. -/
def reducePolynomialMod
    (poly : MultivariatePolynomial vars ℚ) :
    Except PolyError (MultivariatePolynomial vars (FiniteField prime)) :=
  poly.terms.foldlM
    (fun result term => do
      let reducedCoeff ← reduceRationalMod prime term.2
      .ok (result + .fromTerm term.1 reducedCoeff))
    0

/-- The loop of `reconstruct_polynomial`. -/
def reconstructTerms
    (result : MultivariatePolynomial vars ℚ) :
    List (Term numVars (FiniteField prime)) →
      Except PolyError (Option (MultivariatePolynomial vars ℚ))
  | [] => .ok (some result)
  | term :: rest =>
      match reconstruct (bigIntOfWord term.2.value) (bigIntOfWord prime) none with
      | .error error => .error (.domainError error.message)
      | .ok none => .ok none
      | .ok (some reconstructed) =>
          reconstructTerms (result + .fromTerm term.1 reconstructed) rest

/-- `reconstruct_polynomial`. -/
def reconstructPolynomial
    (poly : MultivariatePolynomial vars (FiniteField prime)) :
    Except PolyError (Option (MultivariatePolynomial vars ℚ)) :=
  reconstructTerms prime 0 poly.terms

variable {prime}

omit isPrime in
/-- Below `2^63` the cast to a signed word keeps the value. -/
theorem bigIntOfWord_eq
    {word : BitVec 64}
    (small : word.toNat < 2 ^ 63) :
    bigIntOfWord word = word.toNat := by
  rw [bigIntOfWord, BitVec.toInt_eq_toNat_of_lt (by omega)]

/-- The residue of an integer fits a word. -/
theorem toZMod_residue
    (small : prime.toNat < 2 ^ 63)
    (value : ℤ) :
    (FiniteField.ofValue (BitVec.ofNat 64
        (bigintToU64 (canonicalResidue value (bigIntOfWord prime)))) :
      FiniteField prime).toZMod = value := by
  have positive := isPrime.out.pos
  rw [bigIntOfWord_eq small, FiniteField.toZMod_ofValue, BitVec.toNat_ofNat]
  have notNegative := (canonicalResidue_spec positive value).2
  have lower := canonicalResidue_lt (show (0 : ℤ) < prime.toNat by omega) value
  have sameValue := bigintToU64_eq notNegative
  rw [Nat.mod_eq_of_lt (by omega), cast_bigintToU64 positive]

/-- Reduction in machine words is reduction in the integers modulo the prime. -/
theorem reduceRationalMod_eq
    (small : prime.toNat < 2 ^ 63)
    {value : ℚ}
    (integral : (value.den : ZMod prime.toNat) ≠ 0) :
    reduceRationalMod prime value = .ok (.ofZMod (value : ZMod prime.toNat)) := by
  have numeratorResidue := toZMod_residue small value.num
  have denominatorResidue := toZMod_residue small value.den
  rw [Int.cast_natCast] at denominatorResidue
  have wordNonzero :
      BitVec.ofNat 64 (bigintToU64 (canonicalResidue value.den (bigIntOfWord prime))) ≠
        0 := by
    intro isZero
    rw [isZero, FiniteField.toZMod_ofValue] at denominatorResidue
    exact integral (denominatorResidue.symm.trans Nat.cast_zero)
  have fieldNonzero :
      (FiniteField.ofValue (BitVec.ofNat 64
          (bigintToU64 (canonicalResidue value.den (bigIntOfWord prime)))) :
        FiniteField prime) ≠ 0 := by
    intro isZero
    rw [isZero, FiniteField.toZMod_zero] at denominatorResidue
    exact integral denominatorResidue.symm
  simp only [reduceRationalMod, if_neg wordNonzero, fieldInv, if_neg fieldNonzero, ok_bind]
  congr 1
  apply FiniteField.toZMod_injective
  rw [FiniteField.toZMod_mul, FiniteField.toZMod_inv, FiniteField.toZMod_ofZMod,
    numeratorResidue, denominatorResidue, Rat.cast_def, div_eq_mul_inv]

/-- The machine words compute what the model over the residues computes. -/
theorem map_toZMod_reduceRationalMod
    (small : prime.toNat < 2 ^ 63)
    (value : ℚ) :
    (reduceRationalMod prime value).map FiniteField.toZMod =
      MultivariatePolynomial.reduceRationalMod prime.toNat value := by
  by_cases integral : (value.den : ZMod prime.toNat) = 0
  · have denominatorCast := cast_bigintToU64 isPrime.out.pos value.den
    have lower :=
      canonicalResidue_lt (show (0 : ℤ) < prime.toNat by exact_mod_cast isPrime.out.pos)
        value.den
    have sameValue :=
      bigintToU64_eq (canonicalResidue_spec isPrime.out.pos (value.den : ℤ)).2
    rw [Int.cast_natCast, integral, ZMod.natCast_eq_zero_iff] at denominatorCast
    have isZero : bigintToU64 (canonicalResidue value.den prime.toNat) = 0 :=
      Nat.eq_zero_of_dvd_of_lt denominatorCast (by omega)
    simp only [reduceRationalMod, bigIntOfWord_eq small, isZero,
      MultivariatePolynomial.reduceRationalMod, if_pos]
    rfl
  · rw [reduceRationalMod_eq small integral,
      MultivariatePolynomial.reduceRationalMod_eq integral, Except.map,
      FiniteField.toZMod_ofZMod]

/-- A denominator below the prime is not zero modulo it. -/
theorem den_ne_zero
    {bound : ℤ}
    (below : bound < prime.toNat)
    {value : ℚ}
    (denominatorBounded : (value.den : ℤ) ≤ bound) :
    (value.den : ZMod prime.toNat) ≠ 0 := by
  rw [Ne, ZMod.natCast_eq_zero_iff]
  intro divides
  have atMost := Nat.le_of_dvd (Rat.den_pos value) divides
  omega

/-- A coefficient within the bound is the small fraction of its residue. -/
theorem isSmall_residue
    {bound : ℤ}
    (below : bound < prime.toNat)
    {value : ℚ}
    (numeratorBounded : |value.num| ≤ bound)
    (denominatorBounded : (value.den : ℤ) ≤ bound)
    {residue : ℤ}
    (isResidue : (residue : ZMod prime.toNat) = value) :
    IsSmall prime.toNat residue bound value.num value.den where
  numeratorBounded := numeratorBounded
  denominatorPositive := Int.natCast_pos.mpr (Rat.den_pos value)
  denominatorBounded := denominatorBounded
  lowest := value.reduced
  invertible := by
    rw [Int.gcd_natCast_natCast]
    refine (Nat.coprime_of_lt_prime (Rat.den_pos value).ne' ?_ isPrime.out).symm
    omega
  congruent := by
    have integral := den_ne_zero below denominatorBounded
    refine (ZMod.intCast_eq_intCast_iff _ _ _).mp ?_
    rw [Int.cast_mul, isResidue, Int.cast_natCast, Rat.cast_def, mul_div_cancel₀ _ integral]

/-- The default bound is small against the prime. -/
theorem default_bound_spec
    (isOdd : Odd prime.toNat)
    {bound : ℤ}
    (isBound : isqrt ((prime.toNat : ℤ).tdiv 2) = .ok bound) :
    0 ≤ bound ∧ 2 * bound ^ 2 < prime.toNat ∧ bound < prime.toNat := by
  have positive : (0 : ℤ) < prime.toNat := by exact_mod_cast isPrime.out.pos
  obtain ⟨root, isRoot, notNegative, rootSmall⟩ :=
    exists_default_bound positive ((Int.odd_coe_nat _).mpr isOdd)
  rw [isBound, Except.ok.injEq] at isRoot
  rw [← isRoot] at notNegative rootSmall
  exact ⟨notNegative, rootSmall, by nlinarith⟩

/-- A coefficient within the default bound is reconstructed from its residue. -/
theorem reconstruct_ofZMod
    (isOdd : Odd prime.toNat)
    (small : prime.toNat < 2 ^ 63)
    {bound : ℤ}
    (isBound : isqrt ((prime.toNat : ℤ).tdiv 2) = .ok bound)
    {value : ℚ}
    (numeratorBounded : |value.num| ≤ bound)
    (denominatorBounded : (value.den : ℤ) ≤ bound) :
    reconstruct
        (bigIntOfWord (FiniteField.ofZMod (value : ZMod prime.toNat) :
          FiniteField prime).value)
        (bigIntOfWord prime) none =
      .ok (some value) := by
  have positive : (0 : ℤ) < prime.toNat := by exact_mod_cast isPrime.out.pos
  obtain ⟨notNegative, rootSmall, below⟩ := default_bound_spec isOdd isBound
  have residueLower :=
    (FiniteField.ofZMod (value : ZMod prime.toNat) : FiniteField prime).toNat_value_lt
  rw [bigIntOfWord_eq small, bigIntOfWord_eq (residueLower.trans small)]
  have isResidue :
      (((FiniteField.ofZMod (value : ZMod prime.toNat) :
        FiniteField prime).value.toNat : ℤ) : ZMod prime.toNat) = value := by
    rw [Int.cast_natCast]
    exact FiniteField.toZMod_ofZMod _
  have isSmall := isSmall_residue below numeratorBounded denominatorBounded isResidue
  obtain ⟨result, returned, found, isFraction, unique⟩ :=
    finds_of_bound positive (Or.inr ⟨rfl, isBound⟩) notNegative rootSmall
  obtain ⟨reconstructed, rfl⟩ := Option.isSome_iff_exists.mp (found.mpr ⟨_, _, isSmall⟩)
  obtain ⟨sameNumerator, sameDenominator⟩ :=
    unique _ _ _ _ (isFraction reconstructed rfl) isSmall
  rw [returned, Rat.ext sameNumerator (by exact_mod_cast sameDenominator)]

/-- Reduction takes every term to its residue. -/
theorem reduceTerms_eq
    (small : prime.toNat < 2 ^ 63)
    (terms : List (Term numVars ℚ))
    (integral : ∀ term ∈ terms, (term.2.den : ZMod prime.toNat) ≠ 0)
    (start : MultivariatePolynomial vars (FiniteField prime)) :
    ∃ reduced,
      terms.foldlM
          (fun result term => do
            let reducedCoeff ← reduceRationalMod prime term.2
            .ok (result + .fromTerm term.1 reducedCoeff))
          start =
        (.ok reduced : Except PolyError (MultivariatePolynomial vars (FiniteField prime))) ∧
      reduced.toMvPolynomial =
        start.toMvPolynomial +
          MultivariatePolynomial.termsValue
            (terms.map fun term =>
              (term.1, (.ofZMod (term.2 : ZMod prime.toNat) : FiniteField prime))) := by
  induction terms generalizing start with
  | nil =>
      exact ⟨start, rfl, by simp⟩
  | cons first rest inductionHypothesis =>
      rw [List.foldlM_cons, reduceRationalMod_eq small (integral first (by simp)), ok_bind]
      obtain ⟨reduced, returned, sum⟩ :=
        inductionHypothesis (fun term member => integral term (by simp [member]))
          (start + .fromTerm first.1 (.ofZMod (first.2 : ZMod prime.toNat)))
      refine ⟨reduced, returned, ?_⟩
      rw [sum, MultivariatePolynomial.toMvPolynomial_add,
        MultivariatePolynomial.toMvPolynomial_fromTerm, List.map_cons,
        MultivariatePolynomial.termsValue_cons, add_assoc]

/-- Reconstruction takes the residues of terms within the bound back to the terms. -/
theorem reconstructTerms_eq
    (isOdd : Odd prime.toNat)
    (small : prime.toNat < 2 ^ 63)
    {bound : ℤ}
    (isBound : isqrt ((prime.toNat : ℤ).tdiv 2) = .ok bound)
    (terms : List (Term numVars ℚ))
    (bounded : ∀ term ∈ terms, |term.2.num| ≤ bound ∧ (term.2.den : ℤ) ≤ bound)
    (start : MultivariatePolynomial vars ℚ) :
    ∃ result,
      reconstructTerms prime start
          (terms.map fun term =>
            (term.1, (.ofZMod (term.2 : ZMod prime.toNat) : FiniteField prime))) =
        .ok (some result) ∧
      result.toMvPolynomial =
        start.toMvPolynomial + MultivariatePolynomial.termsValue terms := by
  induction terms generalizing start with
  | nil =>
      exact ⟨start, rfl, by simp⟩
  | cons first rest inductionHypothesis =>
      obtain ⟨numeratorBounded, denominatorBounded⟩ := bounded first (by simp)
      obtain ⟨result, returned, sum⟩ :=
        inductionHypothesis (fun term member => bounded term (by simp [member]))
          (start + .fromTerm first.1 first.2)
      refine ⟨result, ?_, ?_⟩
      · rw [List.map_cons, reconstructTerms,
          reconstruct_ofZMod isOdd small isBound numeratorBounded denominatorBounded]
        exact returned
      · rw [sum, MultivariatePolynomial.toMvPolynomial_add,
          MultivariatePolynomial.toMvPolynomial_fromTerm,
          MultivariatePolynomial.termsValue_cons, add_assoc]

/-- A coefficient within the default bound has a residue that is not zero. -/
theorem ofZMod_ne_zero
    {bound : ℤ}
    (below : bound < prime.toNat)
    {value : ℚ}
    (isNonzero : value ≠ 0)
    (numeratorBounded : |value.num| ≤ bound)
    (denominatorBounded : (value.den : ℤ) ≤ bound) :
    (.ofZMod (value : ZMod prime.toNat) : FiniteField prime) ≠ 0 := by
  intro isZero
  have residueZero : (value : ZMod prime.toNat) = 0 := by
    rw [← FiniteField.toZMod_ofZMod (value : ZMod prime.toNat), isZero,
      FiniteField.toZMod_zero]
  rw [Rat.cast_def, div_eq_zero_iff] at residueZero
  exact residueZero.elim
    (NumericaCore.intCast_ne_zero_of_abs_lt (Rat.num_ne_zero.mpr isNonzero)
      (numeratorBounded.trans_lt below))
    (den_ne_zero below denominatorBounded)

/--
A polynomial whose coefficients are within the default bound of the prime is reduced,
and its reduction is reconstructed to the polynomial itself.
-/
theorem reconstructPolynomial_reducePolynomialMod
    {prime : BitVec 64}
    [isPrime : Fact prime.toNat.Prime]
    (isOdd : Odd prime.toNat)
    (small : prime.toNat < 2 ^ 63)
    {bound : ℤ}
    (isBound : isqrt ((prime.toNat : ℤ).tdiv 2) = .ok bound)
    {numVars : ℕ}
    {vars : Fin numVars → Symbol}
    (poly : MultivariatePolynomial vars ℚ)
    (bounded :
      ∀ term ∈ poly.terms, |term.2.num| ≤ bound ∧ (term.2.den : ℤ) ≤ bound) :
    ∃ reduced,
      reducePolynomialMod prime poly = .ok reduced ∧
      reconstructPolynomial prime reduced = .ok (some poly) := by
  obtain ⟨_, _, below⟩ := default_bound_spec isOdd isBound
  obtain ⟨reduced, isReduced, residues⟩ :=
    reduceTerms_eq small poly.terms
      (fun term member => den_ne_zero below (bounded term member).2) 0
  -- The residues of the terms are themselves the terms of a polynomial.
  let residuePoly : MultivariatePolynomial vars (FiniteField prime) :=
    { terms :=
        poly.terms.map fun term => (term.1, .ofZMod (term.2 : ZMod prime.toNat))
      descending := List.pairwise_map.mpr poly.descending
      nonzero := by
        intro term member
        obtain ⟨original, originalMember, rfl⟩ := List.mem_map.mp member
        exact ofZMod_ne_zero below (poly.nonzero original originalMember)
          (bounded original originalMember).1 (bounded original originalMember).2 }
  have reduced_eq : reduced = residuePoly := by
    apply MultivariatePolynomial.toMvPolynomial_injective
    rw [residues, MultivariatePolynomial.toMvPolynomial_zero, zero_add]
    rfl
  obtain ⟨result, returned, sum⟩ :=
    reconstructTerms_eq isOdd small isBound poly.terms bounded
      (0 : MultivariatePolynomial vars ℚ)
  have result_eq : result = poly := by
    apply MultivariatePolynomial.toMvPolynomial_injective
    rw [sum, MultivariatePolynomial.toMvPolynomial_zero, zero_add]
    rfl
  refine ⟨reduced, isReduced, ?_⟩
  rw [reduced_eq, ← result_eq]
  exact returned

/-- The polynomial `2/3 * x^2 - 5/7 * x + 1/2`. -/
def quadraticFractions : MultivariatePolynomial (fun _ : Fin 1 => ⟨0⟩) ℚ where
  terms := [(⟨fun _ => 2⟩, 2 / 3), (⟨fun _ => 1⟩, -5 / 7), (⟨fun _ => 0⟩, 1 / 2)]
  descending := by decide +kernel
  nonzero := by decide +kernel

/-- `2/3 * x^2 - 5/7 * x + 1/2` survives the prime 101. -/
theorem reconstructPolynomial_reducePolynomialMod_quadratic :
    ∃ _ : Fact (101 : BitVec 64).toNat.Prime,
      ∃ reduced,
        reducePolynomialMod 101 quadraticFractions = .ok reduced ∧
        reconstructPolynomial 101 reduced = .ok (some quadraticFractions) := by
  have isPrime : Fact (101 : BitVec 64).toNat.Prime :=
    ⟨show Nat.Prime 101 by norm_num⟩
  refine ⟨isPrime, ?_⟩
  have root : Nat.sqrt 50 = 7 := (Nat.eq_sqrt.mpr ⟨by decide, by decide⟩).symm
  have isBound : isqrt (((101 : BitVec 64).toNat : ℤ).tdiv 2) = .ok 7 := by
    have rooted := isqrt_eq_sqrt 50
    rwa [root] at rooted
  refine reconstructPolynomial_reducePolynomialMod (by decide) (by decide) isBound
    quadraticFractions ?_
  decide +kernel

end WordField

end PolyCore
