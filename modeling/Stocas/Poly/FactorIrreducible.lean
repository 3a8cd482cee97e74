import Mathlib.RingTheory.AdjoinRoot
import Stocas.Library.DegreeParts
import Stocas.Library.WordPrimes
import Stocas.Poly.FactorProduct
import Stocas.Poly.VariableValues

namespace PolyCore

open DegreeParts (FactorsFrom FactorsOf)
open GreatestCommonDivisor (IsGcd)
open MultivariatePolynomial
open Outcome (bind_eq_ok ok_bind)
open SquarefreeParts
open SymbolTable (Symbol)

/-!
# Which returned factors are irreducible

Splitting by degrees takes the factors of degree `d` out with `x^(p^d) - x`, and a
random splitting stops at pieces of that degree, which are irreducible then.  This
needs the true power of `x`: the prime must survive its cast to a signed integer, and
the exponents of the products their 32 bits.
-/

section Power

variable {single : Fin 1 → Symbol} {K : Type} [Field K] [DecidableEq K]

omit [DecidableEq K] in
/-- No exponent exceeds the degree. -/
theorem exponent_le_natDegree
    {poly : MultivariatePolynomial single K}
    {term : Term 1 K}
    (member : term ∈ poly.terms)
    (index : Fin 1) :
    term.1.exponent index ≤ poly.toPolynomial.natDegree := by
  rw [← degreeIn_eq_natDegree, Subsingleton.elim index 0]
  exact (le_foldl_max (fun term => term.1.exponent 0) poly.terms 0).2 term member

/-- A product of degree below `2^32` is computed without wrapping. -/
theorem toPolynomial_wrappedMul
    {left right : MultivariatePolynomial single K}
    (narrow :
      left.toPolynomial.natDegree + right.toPolynomial.natDegree < exponentModulus) :
    (left.wrappedMul right).toPolynomial = left.toPolynomial * right.toPolynomial := by
  rw [wrappedMul_eq_mul, toPolynomial_mul]
  intro one oneMember other otherMember index
  have first := exponent_le_natDegree oneMember index
  have second := exponent_le_natDegree otherMember index
  omega

variable [FieldErrors K]

/-- The remainder that a division by a monic polynomial returned. -/
theorem remainder_eq
    {dividend divisor quotient remainder : MultivariatePolynomial single K}
    (monic : divisor.toPolynomial.Monic)
    (returned : univariateDivRem dividend divisor = .ok (quotient, remainder)) :
    remainder.toPolynomial = dividend.toPolynomial %ₘ divisor.toPolynomial := by
  obtain ⟨_, _, returns, _, isRemainder⟩ := univariateDivRem_monic dividend monic
  rw [returns] at returned
  cases returned
  exact isRemainder

/-- A reduced product is congruent to the product, and of lower degree. -/
theorem reduced_product
    {modulus left right quotient remainder : MultivariatePolynomial single K}
    (monic : modulus.toPolynomial.Monic)
    (nonconstant : 0 < modulus.toPolynomial.natDegree)
    (narrow : modulus.toPolynomial.natDegree ≤ 2 ^ 31)
    (leftReduced : left.toPolynomial.natDegree < modulus.toPolynomial.natDegree)
    (rightReduced : right.toPolynomial.natDegree < modulus.toPolynomial.natDegree)
    (returned :
      univariateDivRem (left.wrappedMul right) modulus = .ok (quotient, remainder)) :
    remainder.toPolynomial.natDegree < modulus.toPolynomial.natDegree ∧
      AdjoinRoot.mk modulus.toPolynomial remainder.toPolynomial =
        AdjoinRoot.mk modulus.toPolynomial left.toPolynomial *
          AdjoinRoot.mk modulus.toPolynomial right.toPolynomial := by
  have product :
      (left.wrappedMul right).toPolynomial = left.toPolynomial * right.toPolynomial :=
    toPolynomial_wrappedMul (by unfold exponentModulus; omega)
  rw [remainder_eq monic returned, product]
  refine ⟨?_, ?_⟩
  · exact Polynomial.natDegree_modByMonic_lt _ monic
      (fun isOne => by simp [isOne] at nonconstant)
  · rw [← map_mul, AdjoinRoot.mk_eq_mk]
    exact Polynomial.dvd_modByMonic_sub _ _

/-- The rounds of a run of the loop of `poly_powmod`, one for each bit of the exponent. -/
inductive PowmodRun
    (modulus : MultivariatePolynomial single K) :
    MultivariatePolynomial single K →
    MultivariatePolynomial single K →
    ℕ →
    MultivariatePolynomial single K →
    Prop where
  | done {result reducedBase : MultivariatePolynomial single K} :
      PowmodRun modulus result reducedBase 0 result
  | even
      {result reducedBase nextBase quotient power : MultivariatePolynomial single K}
      {half : ℕ} :
      univariateDivRem (reducedBase.wrappedMul reducedBase) modulus =
        .ok (quotient, nextBase) →
      PowmodRun modulus result nextBase half power →
      PowmodRun modulus result reducedBase (2 * half) power
  | odd
      {result reducedBase nextResult nextBase power : MultivariatePolynomial single K}
      {first second : MultivariatePolynomial single K}
      {half : ℕ} :
      univariateDivRem (result.wrappedMul reducedBase) modulus = .ok (first, nextResult) →
      univariateDivRem (reducedBase.wrappedMul reducedBase) modulus =
        .ok (second, nextBase) →
      PowmodRun modulus nextResult nextBase half power →
      PowmodRun modulus result reducedBase (2 * half + 1) power

/-- What the loop returns it has reached in rounds. -/
theorem powmodRun
    {modulus result reducedBase power : MultivariatePolynomial single K}
    {exponent : ℤ}
    (returned : polyPowmodLoop modulus result reducedBase exponent = .ok power) :
    PowmodRun modulus result reducedBase exponent.toNat power := by
  induction size : exponent.toNat using Nat.strong_induction_on
    generalizing exponent result reducedBase with
  | _ count inductionHypothesis =>
      rw [polyPowmodLoop] at returned
      split at returned
      · rename_i positive
        have half : exponent.tdiv 2 = exponent / 2 :=
          Int.tdiv_eq_ediv_of_nonneg (le_of_lt positive)
        have lowest : exponent.tmod 2 = exponent % 2 :=
          Int.tmod_eq_emod_of_nonneg (le_of_lt positive)
        have smaller : (exponent.tdiv 2).toNat < count := by omega
        dsimp only at returned
        split at returned
        · rename_i isEven
          obtain ⟨_, kept, afterResult⟩ := bind_eq_ok.mp returned
          cases kept
          obtain ⟨⟨_, nextBase⟩, squared, continues⟩ := bind_eq_ok.mp afterResult
          have halves : count = 2 * (exponent.tdiv 2).toNat := by omega
          rw [halves]
          exact .even squared (inductionHypothesis _ smaller continues rfl)
        · rename_i isOdd
          obtain ⟨⟨_, nextResult⟩, multiplied, afterProduct⟩ := bind_eq_ok.mp returned
          obtain ⟨_, kept, afterResult⟩ := bind_eq_ok.mp afterProduct
          cases kept
          obtain ⟨⟨_, nextBase⟩, squared, continues⟩ := bind_eq_ok.mp afterResult
          have halves : count = 2 * (exponent.tdiv 2).toNat + 1 := by omega
          rw [halves]
          exact .odd multiplied squared (inductionHypothesis _ smaller continues rfl)
      · rename_i notPositive
        cases returned
        have noPower : count = 0 := by omega
        rw [noPower]
        exact .done

/-- The loop of `poly_powmod` computes a power modulo the polynomial. -/
theorem polyPowmodLoop_spec
    {modulus result reducedBase power : MultivariatePolynomial single K}
    {exponent : ℤ}
    (monic : modulus.toPolynomial.Monic)
    (nonconstant : 0 < modulus.toPolynomial.natDegree)
    (narrow : modulus.toPolynomial.natDegree ≤ 2 ^ 31)
    (resultReduced : result.toPolynomial.natDegree < modulus.toPolynomial.natDegree)
    (baseReduced : reducedBase.toPolynomial.natDegree < modulus.toPolynomial.natDegree)
    (returned : polyPowmodLoop modulus result reducedBase exponent = .ok power) :
    AdjoinRoot.mk modulus.toPolynomial power.toPolynomial =
      AdjoinRoot.mk modulus.toPolynomial result.toPolynomial *
        AdjoinRoot.mk modulus.toPolynomial reducedBase.toPolynomial ^
          exponent.toNat := by
  have run := powmodRun returned
  clear returned
  generalize exponent.toNat = count at run ⊢
  induction run with
  | done =>
      rw [pow_zero, mul_one]
  | even squared _ inductionHypothesis =>
      obtain ⟨nextReduced, nextSquare⟩ :=
        reduced_product monic nonconstant narrow baseReduced baseReduced squared
      rw [inductionHypothesis resultReduced nextReduced, nextSquare, pow_mul, pow_two]
  | odd multiplied squared _ inductionHypothesis =>
      obtain ⟨productReduced, isProduct⟩ :=
        reduced_product monic nonconstant narrow resultReduced baseReduced multiplied
      obtain ⟨nextReduced, nextSquare⟩ :=
        reduced_product monic nonconstant narrow baseReduced baseReduced squared
      rw [inductionHypothesis productReduced nextReduced, nextSquare, isProduct, pow_succ,
        pow_mul, pow_two]
      ring

/-- `poly_powmod` computes a power modulo a polynomial of degree at most `2^31`. -/
theorem polyPowmod_spec
    {modulus base power : MultivariatePolynomial single K}
    {exponent : ℤ}
    (monic : modulus.toPolynomial.Monic)
    (nonconstant : 0 < modulus.toPolynomial.natDegree)
    (narrow : modulus.toPolynomial.natDegree ≤ 2 ^ 31)
    (returned : polyPowmod base exponent modulus = .ok power) :
    modulus.toPolynomial ∣ power.toPolynomial - base.toPolynomial ^ exponent.toNat := by
  obtain ⟨⟨_, reducedBase⟩, reduces, continues⟩ := bind_eq_ok.mp returned
  have isReduced := remainder_eq monic reduces
  have baseReduced :
      reducedBase.toPolynomial.natDegree < modulus.toPolynomial.natDegree := by
    rw [isReduced]
    exact Polynomial.natDegree_modByMonic_lt _ monic
      (fun isOne => by simp [isOne] at nonconstant)
  have oneReduced :
      (constant 1 : MultivariatePolynomial single K).toPolynomial.natDegree <
        modulus.toPolynomial.natDegree := by
    simpa using nonconstant
  have powers :=
    polyPowmodLoop_spec monic nonconstant narrow oneReduced baseReduced continues
  have sameBase :
      AdjoinRoot.mk modulus.toPolynomial reducedBase.toPolynomial =
        AdjoinRoot.mk modulus.toPolynomial base.toPolynomial := by
    rw [isReduced, AdjoinRoot.mk_eq_mk]
    exact Polynomial.dvd_modByMonic_sub _ _
  rw [← AdjoinRoot.mk_eq_mk, powers, sameBase, map_pow]
  simp

end Power

section Prime

variable {prime : ℕ} [Fact prime.Prime] {single : Fin 1 → Symbol}

omit [Fact prime.Prime] in
/-- A prime below `2^63` survives its cast. -/
theorem primeBig_eq
    (small : prime < 2 ^ 63) :
    primeBig prime = prime := by
  unfold primeBig
  apply Int.bmod_eq_of_le_mul_two
  · push_cast
    omega
  · push_cast
    omega

/-- The power that a round computes is the one with the order of the field. -/
theorem frobenius_congr
    (small : prime < 2 ^ 63)
    {d : ℕ}
    {remaining frobenius : MultivariatePolynomial single (ZMod prime)}
    (monic : remaining.toPolynomial.Monic)
    (nonconstant : 0 < remaining.toPolynomial.natDegree)
    (narrow : remaining.toPolynomial.natDegree ≤ 2 ^ 31)
    (powmod :
      polyPowmod (xPoly prime) (bigintPow (primeBig prime) d) remaining =
        .ok frobenius) :
    remaining.toPolynomial ∣
      frobenius.toPolynomial - Polynomial.X ^ Nat.card (ZMod prime) ^ d := by
  have divides := polyPowmod_spec monic nonconstant narrow powmod
  have variableX :
      (xPoly prime : MultivariatePolynomial single (ZMod prime)).toPolynomial =
        Polynomial.X := by
    simp [xPoly, Polynomial.X]
  have exponent : (bigintPow (primeBig prime) d).toNat = Nat.card (ZMod prime) ^ d := by
    rw [bigintPow, coeffPow_eq, primeBig_eq small, Nat.card_zmod, ← Nat.cast_pow,
      Int.toNat_natCast]
  rwa [variableX, exponent] at divides

/-- Congruent polynomials have the same gcd with the modulus. -/
theorem isGcd_congr
    {whole left right common : Polynomial (ZMod prime)}
    (divides : whole ∣ left - right)
    (isGcd : IsGcd whole left common) :
    IsGcd whole right common where
  dvd_left := isGcd.dvd_left
  dvd_right := by
    have difference := isGcd.dvd_left.trans divides
    exact (dvd_sub_right isGcd.dvd_right).mp difference
  greatest divisor dividesWhole dividesRight := by
    refine isGcd.greatest divisor dividesWhole ?_
    exact (dvd_sub_left dividesRight).mp (dividesWhole.trans divides)

/-- Twice a degree in the range of the loop is not wrapped. -/
theorem doubled_eq
    {d : ℕ}
    (dNarrow : 2 * d ≤ 2 ^ 31 + 2) :
    2 * d % exponentModulus = 2 * d := by
  unfold exponentModulus
  omega

/-- The groups of a squarefree polynomial have irreducible factors of one degree each. -/
theorem distinctDegreeLoop_degrees
    (small : prime < 2 ^ 63)
    {rounds d : ℕ}
    {remaining : MultivariatePolynomial single (ZMod prime)}
    {groups : List (ℕ × MultivariatePolynomial single (ZMod prime))}
    (monic : remaining.toPolynomial.Monic)
    (squarefree : Squarefree remaining.toPolynomial)
    (narrow : remaining.toPolynomial.natDegree ≤ 2 ^ 31)
    (positive : 0 < d)
    (dNarrow : 2 * d ≤ 2 ^ 31 + 2)
    (factors : FactorsFrom d remaining.toPolynomial)
    (returned : distinctDegreeLoop prime rounds d remaining = .ok groups) :
    ∀ group ∈ groups, 0 < group.1 ∧ FactorsOf group.1 group.2.toPolynomial := by
  induction rounds generalizing d remaining groups with
  | zero =>
      rcases distinctDegreeLoop_cases monic returned with
        ⟨_, rfl⟩ | ⟨below, nonconstant, rfl⟩ | ⟨_, _, _, _, _, _, impossible, _⟩
      · simp
      · rw [doubled_eq dNarrow] at below
        simpa using ⟨nonconstant, factors.factorsOf monic.ne_zero below⟩
      · cases impossible
  | succ rounds inductionHypothesis =>
      rcases distinctDegreeLoop_cases monic returned with
        ⟨_, rfl⟩ | ⟨below, nonconstant, rfl⟩ |
          ⟨atLeast, _, next, frobenius, g, rest, same, loops, round⟩
      · simp
      · rw [doubled_eq dNarrow] at below
        simpa using ⟨nonconstant, factors.factorsOf monic.ne_zero below⟩
      · cases same
        rw [doubled_eq dNarrow] at atLeast
        have congruent := frobenius_congr small monic (by omega) narrow round.powmod
        have isGcd :
            IsGcd remaining.toPolynomial
              (Polynomial.X ^ Nat.card (ZMod prime) ^ d - Polynomial.X)
              g.toPolynomial := by
          refine isGcd_congr ?_ round.isGcd
          simpa using congruent
        have nextDivides : next.toPolynomial ∣ remaining.toPolynomial :=
          round.product ▸ dvd_mul_left _ _
        have nextNarrow : next.toPolynomial.natDegree ≤ 2 ^ 31 :=
          (Polynomial.natDegree_le_of_dvd nextDivides monic.ne_zero).trans narrow
        have unwrapped : (d + 1) % exponentModulus = d + 1 := by
          unfold exponentModulus
          omega
        rw [unwrapped] at loops
        have restDegrees :=
          inductionHypothesis round.nextMonic (squarefree.squarefree_of_dvd nextDivides)
            nextNarrow (Nat.succ_pos d) (by omega)
            (factors.cofactor squarefree isGcd round.product) loops
        rcases round.listed with ⟨_, rfl⟩ | ⟨_, rfl⟩
        · exact List.forall_mem_cons.mpr
            ⟨⟨positive, factors.factorsOf_gcd positive isGcd⟩, restDegrees⟩
        · exact restDegrees

variable (engine : RandomEngine prime)

/-- Where the splitting of a squarefree polynomial is not affected by a narrow type. -/
def Narrow (prime : ℕ) (degree : ℕ) : Prop :=
  degree ≤ 1 ∨ prime < 2 ^ 63 ∧ degree ≤ 2 ^ 31

/-- What the documentation says of a returned factor. -/
structure IsFactor (factor : Polynomial (ZMod prime)) : Prop where
  monic : factor.Monic
  nonconstant : 0 < factor.natDegree
  irreducible : Irreducible factor

/-- The factors of a squarefree polynomial are irreducible. -/
theorem factorSquarefree_isFactor
    {f : MultivariatePolynomial single (ZMod prime)}
    {factors : List (MultivariatePolynomial single (ZMod prime))}
    {rng next : engine.State}
    (odd : prime ≠ 2)
    (monic : f.toPolynomial.Monic)
    (squarefree : Squarefree f.toPolynomial)
    (nonconstant : 0 < f.toPolynomial.natDegree)
    (narrow : Narrow prime f.toPolynomial.natDegree)
    (returned : factorSquarefree engine f rng = .ok (factors, next)) :
    ∀ factor ∈ factors, IsFactor factor.toPolynomial := by
  rcases narrow with linear | ⟨small, bounded⟩
  · have isLinear : f.toPolynomial.natDegree = 1 := by omega
    rw [factorSquarefree_linear engine odd isLinear] at returned
    cases returned
    have anyFactor : FactorsFrom 1 f.toPolynomial :=
      fun factor isIrreducible _ => isIrreducible.natDegree_pos
    have whole := anyFactor.factorsOf monic.ne_zero (by omega)
    simpa using (⟨monic, nonconstant, whole.irreducible nonconstant rfl⟩ :
      IsFactor f.toPolynomial)
  · obtain ⟨groups, splits, continues⟩ := bind_eq_ok.mp returned
    obtain ⟨groupsMonic, _⟩ := distinctDegreeLoop_product monic splits
    have anyFactor : FactorsFrom 1 f.toPolynomial :=
      fun factor isIrreducible _ => isIrreducible.natDegree_pos
    have degrees := distinctDegreeLoop_degrees small monic squarefree bounded Nat.one_pos
      (show 2 * 1 ≤ 2 ^ 31 + 2 by norm_num) anyFactor splits
    intro factor member
    obtain ⟨group, groupMember, factorMonic, degree, divides⟩ :=
      (factorGroups_product engine groupsMonic continues).1 factor member
    obtain ⟨positive, ofDegree⟩ := degrees group groupMember
    exact ⟨factorMonic, degree ▸ positive,
      (ofDegree.of_dvd divides).irreducible positive degree⟩

/-- Every returned factor comes from splitting one of the parts. -/
theorem exists_part_of_mem
    {parts : List (MultivariatePolynomial single (ZMod prime) × ℕ)}
    {factors : List (FactorTerm single prime)}
    {rng : engine.State}
    (returned : factorParts engine parts rng = .ok factors)
    {term : FactorTerm single prime}
    (member : term ∈ factors) :
    ∃ part ∈ parts, ∃ found start next,
      factorSquarefree engine part.1 start = .ok (found, next) ∧
      term.factor ∈ found := by
  induction parts generalizing factors rng with
  | nil =>
      cases returned
      cases member
  | cons part parts inductionHypothesis =>
      obtain ⟨⟨first, between⟩, splits, afterSplit⟩ := bind_eq_ok.mp returned
      obtain ⟨rest, continues, finished⟩ := bind_eq_ok.mp afterSplit
      cases finished
      rcases List.mem_append.mp member with inFirst | inRest
      · obtain ⟨factor, factorMember, rfl⟩ := List.mem_map.mp inFirst
        exact ⟨part, by simp, first, rng, between, splits, factorMember⟩
      · obtain ⟨found, foundMember, origin⟩ := inductionHypothesis continues inRest
        exact ⟨found, List.mem_cons_of_mem part foundMember, origin⟩

/-- The product of the irreducible factors with one multiplicity modulo the prime. -/
noncomputable def squarefreePart
    (whole : Polynomial (ZMod prime))
    (index : ℕ) :
    Polynomial (ZMod prime) :=
  part (visible (factorsOf whole) (multiplicity · whole)) (multiplicity · whole) index

/-- A returned factor, and the part of the polynomial whose splitting has found it. -/
structure ComesFromPart
    (f : MultivariatePolynomial single (ZMod prime))
    (index : ℕ)
    (part : MultivariatePolynomial single (ZMod prime))
    (found : List (MultivariatePolynomial single (ZMod prime)))
    (start next : engine.State) : Prop where
  isPart : part.toPolynomial = squarefreePart f.toPolynomial index
  monic : part.toPolynomial.Monic
  squarefree : Squarefree part.toPolynomial
  nonconstant : 0 < part.toPolynomial.natDegree
  splits : factorSquarefree engine part start = .ok (found, next)

/-- Every returned factor comes from a squarefree part. -/
theorem exists_comesFromPart
    {f : MultivariatePolynomial single (ZMod prime)}
    {rngSeed : ℕ}
    {factorization : Factorization single prime}
    (returned : factorUnivariateFiniteField engine f rngSeed = .ok factorization)
    {term : FactorTerm single prime}
    (member : term ∈ factorization.factors) :
    prime ≠ 2 ∧ f.toPolynomial ≠ 0 ∧
      ∃ index part found start next,
        ComesFromPart engine f index part found start next ∧ term.factor ∈ found := by
  have odd : prime ≠ 2 := by
    rintro rfl
    rw [factorUnivariateFiniteField] at returned
    split at returned
    · cases returned
    · cases returned
  obtain ⟨isNonzero, _, parts, areParts, continues⟩ :=
    factorUnivariateFiniteField_ok engine returned
  obtain ⟨part, partMember, found, start, next, splits, inFound⟩ :=
    exists_part_of_mem engine continues member
  obtain ⟨index, isPart, nonconstant⟩ := mem_parts areParts partMember
  have separate := (separate_factorsOf isNonzero).mono
    (visible_subset (factorsOf f.toPolynomial) (multiplicity · f.toPolynomial))
  refine ⟨odd, isNonzero, index, part.1, found, start, next, ?_, inFound⟩
  refine ⟨isPart, ?_, ?_, nonconstant, splits⟩
  · rw [isPart]
    exact separate.monic_part _ index
  · rw [isPart]
    exact separate.squarefree_part _ index

omit [Fact prime.Prime] in
/-- A prime of at least `2^63` is negative after its cast. -/
theorem primeBig_neg
    (large : 2 ^ 63 ≤ prime)
    (size : prime < 2 ^ 64) :
    primeBig prime < 0 := by
  have residue : (prime : ℤ) % ((2 ^ 64 : ℕ) : ℤ) = prime := by
    refine Int.emod_eq_of_lt ?_ ?_
    · omega
    · exact_mod_cast size
  unfold primeBig
  rw [Int.bmod_def, residue]
  split
  · push_cast at *
    omega
  · push_cast
    omega

/-- A power with a negative exponent is returned as one. -/
theorem polyPowmod_nonpos
    {modulus base : MultivariatePolynomial single (ZMod prime)}
    {exponent : ℤ}
    (monic : modulus.toPolynomial.Monic)
    (notPositive : exponent ≤ 0) :
    polyPowmod base exponent modulus = .ok (constant 1) := by
  obtain ⟨_, _, returns, _⟩ := univariateDivRem_monic base monic
  rw [polyPowmod, returns, ok_bind]
  dsimp only
  rw [polyPowmodLoop, dif_neg (not_lt.mpr notPositive)]

/-- Without the root one, a quadratic polynomial is a group of degree two. -/
theorem distinctDegreeSplit_quadratic
    (large : 2 ^ 63 ≤ prime)
    (size : prime < 2 ^ 64)
    {f : MultivariatePolynomial single (ZMod prime)}
    (monic : f.toPolynomial.Monic)
    (quadratic : f.toPolynomial.natDegree = 2)
    (coprime : IsCoprime f.toPolynomial (1 - Polynomial.X)) :
    distinctDegreeSplit prime f = .ok [(f.degreeIn 0, f)] := by
  have degree : f.degreeIn 0 = 2 := by
    rw [degreeIn_eq_natDegree, quadratic]
  have notPositive : bigintPow (primeBig prime) 1 ≤ 0 := by
    rw [bigintPow, coeffPow_eq, pow_one]
    exact le_of_lt (primeBig_neg large size)
  have powmod :
      polyPowmod (xPoly prime) (bigintPow (primeBig prime) 1) f = .ok (constant 1) :=
    polyPowmod_nonpos monic notPositive
  have isGcd :
      IsGcd f.toPolynomial
        (constant 1 - xPoly prime :
          MultivariatePolynomial single (ZMod prime)).toPolynomial 1 := by
    have difference :
        (constant 1 - xPoly prime :
          MultivariatePolynomial single (ZMod prime)).toPolynomial =
            1 - Polynomial.X := by
      simp [xPoly, Polynomial.X]
    have scaled :
        IsGcd (1 * f.toPolynomial) (1 * (1 - Polynomial.X)) 1 :=
      isGcd_of_isCoprime coprime
    rw [difference]
    simpa only [one_mul] using scaled
  obtain ⟨common, isCommon, isOne⟩ := univariateGcd_eq isGcd Polynomial.monic_one
  have normal : monicNormalize common = .ok common :=
    monicNormalize_monic (isOne ▸ Polynomial.monic_one)
  have constantDegree : common.degreeIn 0 = 0 := by
    rw [degreeIn_eq_natDegree, isOne, Polynomial.natDegree_one]
  rw [distinctDegreeSplit, distinctDegreeLoop.eq_def]
  simp only [degree, powmod, isCommon, normal, arithmetic, ok_bind, constantDegree]
  rw [distinctDegreeLoop.eq_def]
  simp [degree, exponentModulus]

/-- The polynomial `x * (x - 2)`. -/
def twoRoots (prime : ℕ) [Fact prime.Prime] :
    MultivariatePolynomial oneVariable (ZMod prime) :=
  xPoly prime * (xPoly prime - constant 2)

theorem toPolynomial_twoRoots :
    (twoRoots prime).toPolynomial =
      Polynomial.X * (Polynomial.X - Polynomial.C 2) := by
  simp [twoRoots, xPoly, Polynomial.X]

theorem natDegree_twoRoots :
    (twoRoots prime).toPolynomial.natDegree = 2 := by
  rw [toPolynomial_twoRoots,
    Polynomial.natDegree_mul Polynomial.X_ne_zero (Polynomial.X_sub_C_ne_zero 2),
    Polynomial.natDegree_X, Polynomial.natDegree_X_sub_C]

/-- The two factors of `x * (x - 2)`. -/
noncomputable def twoFactors (prime : ℕ) [Fact prime.Prime] :
    Finset (Polynomial (ZMod prime)) :=
  {Polynomial.X, Polynomial.X - Polynomial.C 2}

theorem separate_twoFactors :
    Separate (twoFactors prime) where
  irreducible := by
    simp [twoFactors, Polynomial.irreducible_X, Polynomial.irreducible_X_sub_C]
  monic := by
    simp [twoFactors, Polynomial.monic_X_sub_C]
  separable := by
    simp [twoFactors, Polynomial.separable_X, Polynomial.separable_X_sub_C]

/-- The two factors differ over a field in which two is not zero. -/
theorem prod_twoFactors
    (odd : prime ≠ 2) :
    ∏ factor ∈ twoFactors prime, factor = (twoRoots prime).toPolynomial := by
  have differ : (Polynomial.X : Polynomial (ZMod prime)) ≠ Polynomial.X - Polynomial.C 2 := by
    intro same
    have isZero : (Polynomial.C 2 : Polynomial (ZMod prime)) = 0 := by
      linear_combination same
    rw [Polynomial.C_eq_zero] at isZero
    have divides := (ZMod.natCast_eq_zero_iff 2 prime).mp (by exact_mod_cast isZero)
    exact odd ((Nat.prime_dvd_prime_iff_eq Fact.out Nat.prime_two).mp divides)
  rw [toPolynomial_twoRoots, twoFactors, Finset.prod_pair differ]

/-- One is not a root of `x * (x - 2)`. -/
theorem isCoprime_twoRoots :
    IsCoprime (twoRoots prime).toPolynomial (1 - Polynomial.X) := by
  refine ⟨-1, 1 - Polynomial.X, ?_⟩
  rw [toPolynomial_twoRoots, show (Polynomial.C 2 : Polynomial (ZMod prime)) = 2 by rfl]
  ring

/-- A monic squarefree polynomial is its only part. -/
theorem factorUnivariateFiniteField_squarefree
    (odd : prime ≠ 2)
    {factors : Finset (Polynomial (ZMod prime))}
    (separate : Separate factors)
    {f : MultivariatePolynomial single (ZMod prime)}
    (isProduct : f.toPolynomial = ∏ factor ∈ factors, factor)
    (nonconstant : 0 < f.toPolynomial.natDegree)
    {rngSeed : ℕ}
    {found : List (MultivariatePolynomial single (ZMod prime))}
    {next : engine.State}
    (splits : factorSquarefree engine f (engine.seeded rngSeed) = .ok (found, next)) :
    ∃ leadingCoefficient,
      factorUnivariateFiniteField engine f rngSeed =
        .ok ⟨leadingCoefficient, found.map (fun factor => ⟨factor, 1⟩)⟩ := by
  have monic : f.toPolynomial.Monic := isProduct ▸ separate.monic_prod
  obtain ⟨leading, rest, shape⟩ :=
    exists_leading (fun isZero => monic.ne_zero (toPolynomial_eq_zero_iff.mpr isZero))
  obtain ⟨parts, decomposes, areParts⟩ :=
    squarefreeDecomposition_spec prime (fun _ => 1) separate f (by simpa using isProduct)
  rw [partsFrom_once prime (Fact.out (p := prime.Prime)).one_lt (isProduct ▸ nonconstant),
    ← isProduct] at areParts
  obtain ⟨⟨group, count⟩, rfl, isWhole⟩ := List.map_eq_singleton_iff.mp areParts
  obtain ⟨sameGroup, isOne⟩ := Prod.mk.inj isWhole
  obtain rfl := toPolynomial_injective sameGroup
  obtain rfl : count = 1 := isOne
  refine ⟨leading.2, ?_⟩
  rw [factorUnivariateFiniteField, shape]
  simp only [if_neg odd, monicNormalize_monic monic, arithmetic, ok_bind, decomposes,
    factorParts, splits, List.append_nil]

/-- For a prime of at least `2^63`, `x * (x - 2)` is returned as one factor. -/
theorem factor_twoRoots
    (large : 2 ^ 63 ≤ prime)
    (size : prime < 2 ^ 64)
    (rngSeed : ℕ) :
    ∃ factorization,
      factorUnivariateFiniteField engine (twoRoots prime) rngSeed = .ok factorization ∧
      ∃ term ∈ factorization.factors,
        term.factor.toPolynomial = (twoRoots prime).toPolynomial := by
  have odd : prime ≠ 2 := by omega
  have product := prod_twoFactors odd
  have monic : (twoRoots prime).toPolynomial.Monic :=
    product ▸ separate_twoFactors.monic_prod
  have nonconstant : 0 < (twoRoots prime).toPolynomial.natDegree := by
    rw [natDegree_twoRoots]
    exact Nat.two_pos
  have isGroup :=
    distinctDegreeSplit_quadratic large size monic natDegree_twoRoots isCoprime_twoRoots
  have splits := factorSquarefree_whole engine odd isGroup (engine.seeded rngSeed)
  obtain ⟨leadingCoefficient, returned⟩ :=
    factorUnivariateFiniteField_squarefree engine odd separate_twoFactors product.symm
      nonconstant splits
  exact ⟨_, returned, ⟨twoRoots prime, 1⟩, by simp, rfl⟩

/-- A part is not larger than the polynomial. -/
theorem natDegree_squarefreePart_le
    {whole : Polynomial (ZMod prime)}
    (isNonzero : whole ≠ 0)
    (index : ℕ) :
    (squarefreePart whole index).natDegree ≤ whole.natDegree := by
  refine Polynomial.natDegree_le_of_dvd ?_ isNonzero
  refine dvd_trans (Dvd.intro _ (prod_eq_part_mul _ index).symm) ?_
  refine dvd_trans ?_ (prod_factorsOf_dvd isNonzero)
  exact Finset.prod_dvd_prod_of_subset _ _ _ (visible_subset _ _)

/-- The product of two linear polynomials is not irreducible. -/
theorem not_irreducible_twoRoots :
    ¬ Irreducible (twoRoots prime).toPolynomial := by
  rw [toPolynomial_twoRoots]
  intro isIrreducible
  rcases isIrreducible.isUnit_or_isUnit rfl with first | second
  · exact Polynomial.not_isUnit_X first
  · exact Polynomial.not_isUnit_X_sub_C 2 second

end Prime

instance fact_prime_goldilocks : Fact (Nat.Prime 18446744069414584321) :=
  ⟨WordPrimes.prime_goldilocks⟩

/-- Modulo `2^64 - 2^32 + 1` the reducible `x * (x - 2)` is returned as a factor. -/
theorem factor_twoRoots_goldilocks :
    ∃ factorization,
      factorUnivariateFiniteField (zeroEngine 18446744069414584321)
          (twoRoots 18446744069414584321) 0 =
        .ok factorization ∧
      ∃ term ∈ factorization.factors, ¬ Irreducible term.factor.toPolynomial := by
  obtain ⟨factorization, returned, term, member, isWhole⟩ :=
    factor_twoRoots (zeroEngine 18446744069414584321) (by norm_num) (by norm_num) 0
  refine ⟨factorization, returned, term, member, ?_⟩
  rw [isWhole]
  exact not_irreducible_twoRoots

end PolyCore
