import Mathlib.NumberTheory.LucasLehmer
import Stocas.Numerica.Decimal
import Stocas.Numerica.Rational
import Stocas.Poly.MultivariateGcd

namespace PolyCore

open NumericaCore (bigIntOfString bigIntToString reconstruct)
open Outcome (firstSuccess)
open SymbolTable (Symbol)

/-!
# The multivariate gcd over the rationals

The inputs are reduced modulo a large prime, the gcd over the prime field is
computed, its coefficients are reconstructed as rationals, and the candidate is
returned if it divides both inputs.  `FiniteFieldRing<uint64_t>` is `ZMod`, whose
elements are their canonical residues, and `RationalField` is `ℚ`.
-/

instance : FieldErrors ℚ where
  inverseOfZero := "Rational: inverse of zero"

instance {prime : ℕ} : FieldErrors (ZMod prime) where
  inverseOfZero := "FiniteField: zero has no multiplicative inverse"

theorem prime_mersenne31 : Nat.Prime 2147483647 := by
  have isPrime := lucas_lehmer_sufficiency 31 (by norm_num) (by norm_num)
  rwa [show mersenne 31 = 2147483647 from rfl] at isPrime

theorem prime_mersenne61 : Nat.Prime 2305843009213693951 := by
  have isPrime := lucas_lehmer_sufficiency 61 (by norm_num) (by norm_num)
  rwa [show mersenne 61 = 2305843009213693951 from rfl] at isPrime

/-- `kMultivariateGcdPrimes`. -/
def kMultivariateGcdPrimes : List {prime : ℕ // prime.Prime} :=
  [⟨2147483647, prime_mersenne31⟩, ⟨2305843009213693951, prime_mersenne61⟩]

/-- `canonical_residue`. -/
def canonicalResidue (value modulus : ℤ) : ℤ :=
  let residue := value.tmod modulus
  if residue < 0 then
    residue + modulus
  else
    residue

/-- `bigint_to_u64`, through the decimal form. -/
def bigintToU64 (value : ℤ) : ℕ :=
  (bigIntOfString (bigIntToString value)).toNat

namespace MultivariatePolynomial

section Prime

variable (prime : ℕ) [Fact prime.Prime]

/-- `reduce_rational_mod`. -/
def reduceRationalMod (value : ℚ) : Except PolyError (ZMod prime) :=
  let numeratorResidue := canonicalResidue value.num prime
  let denominatorResidue := canonicalResidue value.den prime
  let denominatorU64 := bigintToU64 denominatorResidue
  if denominatorU64 = 0 then
    .error (.domainError "poly_core: unlucky prime (a denominator vanishes mod p)")
  else do
    let inverse ← fieldInv (denominatorU64 : ZMod prime)
    .ok ((bigintToU64 numeratorResidue : ZMod prime) * inverse)

variable {numVars : ℕ} {vars : Fin numVars → Symbol}

/-- `reduce_polynomial_mod`. -/
def reducePolynomialMod
    (poly : MultivariatePolynomial vars ℚ) :
    Except PolyError (MultivariatePolynomial vars (ZMod prime)) :=
  poly.terms.foldlM
    (fun result term => do
      let reducedCoeff ← reduceRationalMod prime term.2
      .ok (result + fromTerm term.1 reducedCoeff))
    0

/-- The loop of `reconstruct_polynomial`. -/
def reconstructTerms
    (result : MultivariatePolynomial vars ℚ) :
    List (Term numVars (ZMod prime)) →
      Except PolyError (Option (MultivariatePolynomial vars ℚ))
  | [] => .ok (some result)
  | term :: rest =>
      match reconstruct term.2.val prime none with
      | .error error => .error (.domainError error.message)
      | .ok none => .ok none
      | .ok (some reconstructed) =>
          reconstructTerms (result + fromTerm term.1 reconstructed) rest

/-- `reconstruct_polynomial`. -/
def reconstructPolynomial
    (poly : MultivariatePolynomial vars (ZMod prime)) :
    Except PolyError (Option (MultivariatePolynomial vars ℚ)) :=
  reconstructTerms prime 0 poly.terms

/-- One round of the loop of `rational_multivariate_gcd`. -/
def primeAttempt
    {otherVars : ℕ}
    {vars : Fin (otherVars + 1) → Symbol}
    (a b : MultivariatePolynomial vars ℚ) :
    Except PolyError (Option (MultivariatePolynomial vars ℚ)) :=
  catchDomainError do
    let aMod ← reducePolynomialMod prime a
    let bMod ← reducePolynomialMod prime b
    let gcdMod ← finiteFieldMultivariateGcd otherVars aMod bMod
    match ← reconstructPolynomial prime gcdMod with
    | none => .ok none
    | some gcdCandidate =>
        if gcdCandidate.isZero then
          .ok none
        else do
          let (_, remainderA) ← multivariateDivRem a gcdCandidate
          if remainderA.isZero then do
            let (_, remainderB) ← multivariateDivRem b gcdCandidate
            if remainderB.isZero then
              .ok (some gcdCandidate)
            else
              .ok none
          else
            .ok none

end Prime

/-- The members of the list are primes. -/
theorem fact_prime (prime : {prime : ℕ // prime.Prime}) : Fact prime.1.Prime :=
  ⟨prime.2⟩

/-- `rational_multivariate_gcd`. -/
def rationalMultivariateGcd
    {otherVars : ℕ}
    {vars : Fin (otherVars + 1) → Symbol}
    (a b : MultivariatePolynomial vars ℚ) :
    Except PolyError (MultivariatePolynomial vars ℚ) :=
  if a.isZero && b.isZero then
    .ok 0
  else
    firstSuccess
      (.runtimeError
        ("poly_core::rational_multivariate_gcd: failed to compute a verified gcd " ++
          "(exhausted kMultivariateGcdPrimes)"))
      (fun prime => @primeAttempt prime.1 (fact_prime prime) otherVars vars a b)
      kMultivariateGcdPrimes

end MultivariatePolynomial

end PolyCore
