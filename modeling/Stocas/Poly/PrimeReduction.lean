import Stocas.Library.PrimeIntegral
import Stocas.Poly.Denotation
import Stocas.Poly.RationalGcd

namespace PolyCore

open NumericaCore (bigIntOfString_toDigits bigIntToString cast_tmod reconstruct
  reconstruct_one reconstruct_spec)
open Outcome (bind_eq_ok ok_bind)
open PrimeIntegral (integralAt reduceAt)
open SymbolTable (Symbol)

/-!
# Reduction modulo a prime and back

A polynomial that is reduced has coefficients that are integral at the prime, and it
is reduced coefficient by coefficient.  What is reconstructed from a polynomial modulo
the prime is integral and reduces to it again, term by term.
-/

/-- A canonical residue is congruent to the integer and not negative. -/
theorem canonicalResidue_spec
    {prime : ℕ}
    (positive : 0 < prime)
    (value : ℤ) :
    ((canonicalResidue value prime : ℤ) : ZMod prime) = value ∧
      0 ≤ canonicalResidue value prime := by
  rw [canonicalResidue]
  split
  · constructor
    · rw [Int.cast_add, cast_tmod]
      simp
    · have bounded := Int.lt_tmod_of_pos value (show (0 : ℤ) < prime by omega)
      omega
  · rename_i notNegative
    exact ⟨cast_tmod value, not_lt.mp notNegative⟩

/-- A canonical residue is below the modulus. -/
theorem canonicalResidue_lt
    {modulus : ℤ}
    (positive : 0 < modulus)
    (value : ℤ) :
    canonicalResidue value modulus < modulus := by
  have upper := Int.tmod_lt_of_pos value positive
  rw [canonicalResidue]
  split <;> omega

/-- Extracting a native integer keeps a value that is not negative. -/
theorem bigintToU64_eq
    {value : ℤ}
    (notNegative : 0 ≤ value) :
    (bigintToU64 value : ℤ) = value := by
  rw [bigintToU64, bigIntToString, if_neg (not_lt.mpr notNegative),
    bigIntOfString_toDigits]
  omega

/-- What stands for an integer modulo the prime. -/
theorem cast_bigintToU64
    {prime : ℕ}
    (positive : 0 < prime)
    (value : ℤ) :
    ((bigintToU64 (canonicalResidue value prime) : ℕ) : ZMod prime) = value := by
  obtain ⟨congruent, notNegative⟩ := canonicalResidue_spec positive value
  rw [← congruent, ← Int.cast_natCast, bigintToU64_eq notNegative]

namespace MultivariatePolynomial

variable {prime : ℕ} [isPrime : Fact prime.Prime]

/-- A rational that is integral at the prime is reduced. -/
theorem reduceRationalMod_eq
    {value : ℚ}
    (integral : (value.den : ZMod prime) ≠ 0) :
    reduceRationalMod prime value = .ok (value : ZMod prime) := by
  have positive := isPrime.out.pos
  have denominatorCast := cast_bigintToU64 positive value.den
  rw [Int.cast_natCast] at denominatorCast
  have notZero : bigintToU64 (canonicalResidue value.den prime) ≠ 0 := by
    intro isZero
    rw [isZero, Nat.cast_zero] at denominatorCast
    exact integral denominatorCast.symm
  simp only [reduceRationalMod, if_neg notZero, fieldInv, denominatorCast,
    if_neg integral, ok_bind]
  rw [cast_bigintToU64 positive, Rat.cast_def, div_eq_mul_inv]

/-- A rational that is reduced is integral at the prime, and its residue is returned. -/
theorem reduceRationalMod_spec
    {value : ℚ}
    {residue : ZMod prime}
    (returned : reduceRationalMod prime value = .ok residue) :
    ∃ integral : integralAt prime,
      (integral : ℚ) = value ∧ reduceAt prime integral = residue := by
  have integral : (value.den : ZMod prime) ≠ 0 := by
    simp only [reduceRationalMod] at returned
    split at returned
    · cases returned
    · obtain ⟨inverse, inverted, _⟩ := bind_eq_ok.mp returned
      have denominatorNonzero := (fieldInv_eq_ok.mp inverted).1
      rw [cast_bigintToU64 isPrime.out.pos, Int.cast_natCast] at denominatorNonzero
      exact denominatorNonzero
  rw [reduceRationalMod_eq integral] at returned
  cases returned
  exact ⟨⟨value, integral⟩, rfl, rfl⟩

variable {numVars : ℕ} {vars : Fin numVars → Symbol}

/-- A polynomial that is reduced comes from one with integral coefficients. -/
theorem reducePolynomialMod_spec
    {poly : MultivariatePolynomial vars ℚ}
    {reduced : MultivariatePolynomial vars (ZMod prime)}
    (returned : reducePolynomialMod prime poly = .ok reduced) :
    ∃ lifted : MvPolynomial (Fin numVars) (integralAt prime),
      MvPolynomial.map (integralAt prime).subtype lifted = poly.toMvPolynomial ∧
      MvPolynomial.map (reduceAt prime) lifted = reduced.toMvPolynomial := by
  have folded
      (terms : List (Term numVars ℚ))
      (start : MultivariatePolynomial vars (ZMod prime))
      (returned :
        terms.foldlM
          (fun result term => do
            let reducedCoeff ← reduceRationalMod prime term.2
            .ok (result + fromTerm term.1 reducedCoeff))
          start = .ok reduced) :
      ∃ lifted : MvPolynomial (Fin numVars) (integralAt prime),
        MvPolynomial.map (integralAt prime).subtype lifted = termsValue terms ∧
        start.toMvPolynomial + MvPolynomial.map (reduceAt prime) lifted =
          reduced.toMvPolynomial := by
    induction terms generalizing start with
    | nil =>
        cases returned
        exact ⟨0, by simp, by simp⟩
    | cons first rest inductionHypothesis =>
        rw [List.foldlM_cons] at returned
        obtain ⟨next, step, returned⟩ := bind_eq_ok.mp returned
        obtain ⟨residue, isResidue, same⟩ := bind_eq_ok.mp step
        cases same
        obtain ⟨integral, isValue, isReduced⟩ := reduceRationalMod_spec isResidue
        obtain ⟨lifted, liftsRest, sum⟩ := inductionHypothesis _ returned
        refine ⟨MvPolynomial.monomial first.1.toFinsupp integral + lifted, ?_, ?_⟩
        · rw [map_add, MvPolynomial.map_monomial, liftsRest, termsValue_cons, ← isValue]
          rfl
        · rw [← sum, map_add, MvPolynomial.map_monomial, isReduced, toMvPolynomial_add,
            toMvPolynomial_fromTerm, add_assoc]
  obtain ⟨lifted, lifts, sum⟩ := folded poly.terms 0 returned
  exact ⟨lifted, lifts, by rw [← sum, toMvPolynomial_zero, zero_add]⟩

/-- A coefficient that is reconstructed is integral and reduces to its residue. -/
theorem reconstruct_residue
    {residue : ZMod prime}
    {value : ℚ}
    (found : reconstruct residue.val prime none = .ok (some value)) :
    ∃ integral : integralAt prime,
      (integral : ℚ) = value ∧ reduceAt prime integral = residue ∧
      (residue = 1 → integral = 1) := by
  obtain ⟨denominatorNonzero, congruent⟩ := reconstruct_spec found
  refine ⟨⟨value, denominatorNonzero⟩, rfl, ?_, ?_⟩
  · rw [PrimeIntegral.reduceAt_apply, congruent]
    simp
  · intro isOne
    have atLeastTwo := isPrime.out.two_le
    have oneFound := reconstruct_one atLeastTwo
    have valOne : (residue.val : ℤ) = 1 := by
      have large : Fact (1 < prime) := ⟨isPrime.out.one_lt⟩
      rw [isOne, ZMod.val_one]
      rfl
    rw [valOne, oneFound] at found
    cases found
    rfl

/-- Reconstructed terms are integral and reduce to the terms they come from. -/
theorem reconstructTerms_spec
    {terms : List (Term numVars (ZMod prime))}
    {start candidate : MultivariatePolynomial vars ℚ}
    (returned : reconstructTerms prime start terms = .ok (some candidate)) :
    ∃ lifted : List (Term numVars (integralAt prime)),
      lifted.map (fun term => (term.1, reduceAt prime term.2)) = terms ∧
      candidate.toMvPolynomial =
        start.toMvPolynomial +
          MvPolynomial.map (integralAt prime).subtype (termsValue lifted) ∧
      ∀ term ∈ lifted, reduceAt prime term.2 = 1 → term.2 = 1 := by
  induction terms generalizing start with
  | nil =>
      cases returned
      exact ⟨[], rfl, by simp, by simp⟩
  | cons first rest inductionHypothesis =>
      rw [reconstructTerms] at returned
      split at returned
      · cases returned
      · cases returned
      · rename_i value found
        obtain ⟨integral, isValue, isReduced, oneOfOne⟩ := reconstruct_residue found
        obtain ⟨lifted, reduces, sum, ones⟩ := inductionHypothesis returned
        refine ⟨(first.1, integral) :: lifted, ?_, ?_, ?_⟩
        · rw [List.map_cons, reduces, isReduced]
        · rw [sum, toMvPolynomial_add, toMvPolynomial_fromTerm, termsValue_cons, map_add,
            MvPolynomial.map_monomial, ← isValue, add_assoc]
          rfl
        · intro term member
          rcases List.mem_cons.mp member with isFirst | inLifted
          · intro reducesToOne
            rw [isFirst] at reducesToOne ⊢
            exact oneOfOne (isReduced ▸ reducesToOne)
          · exact ones term inLifted

/-- A homomorphism maps the sum of a list of terms term by term. -/
theorem map_termsValue
    {O S : Type}
    [CommRing O]
    [CommRing S]
    (hom : O →+* S)
    (terms : List (Term numVars O)) :
    MvPolynomial.map hom (termsValue terms) =
      termsValue (terms.map (fun term => (term.1, hom term.2))) := by
  induction terms with
  | nil =>
      simp
  | cons first rest inductionHypothesis =>
      simp [inductionHypothesis]

/--
A candidate that is reconstructed from a monic polynomial comes from a monic
polynomial with integral coefficients, which reduces to that polynomial.
-/
theorem reconstructPolynomial_spec
    {poly : MultivariatePolynomial vars (ZMod prime)}
    (monic : MonomialOrder.lex.Monic poly.toMvPolynomial)
    {candidate : MultivariatePolynomial vars ℚ}
    (returned : reconstructPolynomial prime poly = .ok (some candidate)) :
    ∃ lifted : MvPolynomial (Fin numVars) (integralAt prime),
      MvPolynomial.map (integralAt prime).subtype lifted = candidate.toMvPolynomial ∧
      MvPolynomial.map (reduceAt prime) lifted = poly.toMvPolynomial ∧
      MonomialOrder.lex.Monic lifted := by
  obtain ⟨lifted, reduces, sum, ones⟩ := reconstructTerms_spec returned
  have descending : lifted.Pairwise (fun left right => right.1 < left.1) := by
    have reduced := poly.descending
    rw [← reduces, List.pairwise_map] at reduced
    exact reduced
  have nonzero : ∀ term ∈ lifted, term.2 ≠ 0 := by
    intro term member isZero
    refine poly.nonzero (term.1, reduceAt prime term.2) ?_ ?_
    · rw [← reduces]
      exact List.mem_map_of_mem member
    · rw [isZero, map_zero]
  let whole : MultivariatePolynomial vars (integralAt prime) :=
    { terms := lifted, descending := descending, nonzero := nonzero }
  refine ⟨whole.toMvPolynomial, ?_, ?_, ?_⟩
  · rw [sum, toMvPolynomial_zero, zero_add]
    rfl
  · rw [toMvPolynomial, map_termsValue, reduces]
    rfl
  · obtain ⟨leading, rest, shape⟩ := exists_leading monic.ne_zero
    cases liftedShape : lifted with
    | nil =>
        rw [← reduces, liftedShape] at shape
        cases shape
    | cons liftedLeading liftedRest =>
        have wholeShape : whole.terms = liftedLeading :: liftedRest := liftedShape
        rw [MonomialOrder.Monic, leadingCoeff_leading wholeShape]
        refine ones liftedLeading (by simp [liftedShape]) ?_
        have polyShape : poly.terms = (liftedLeading.1, reduceAt prime liftedLeading.2) ::
            liftedRest.map (fun term => (term.1, reduceAt prime term.2)) := by
          rw [← reduces, liftedShape, List.map_cons]
        have leadingOne := leadingCoeff_leading polyShape
        rw [monic.leadingCoeff_eq_one] at leadingOne
        exact leadingOne.symm

end MultivariatePolynomial

end PolyCore
