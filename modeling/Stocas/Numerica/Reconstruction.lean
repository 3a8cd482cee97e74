import Stocas.Library.SmallFraction
import Stocas.Numerica.Rational

namespace NumericaCore

open Outcome (ok_bind)
open SmallFraction (IsSmall Remainders)

/-!
# Completeness of rational reconstruction

`Rational::reconstruct` finds the one small fraction that has the residue whenever
there is one.  The default bound is the integer square root of half the modulus.
-/

/-- The loop stops at the first remainder within the bound. -/
theorem reconstructLoop_remainders
    {modulus residue actualBound rPrev rCurr tPrev tCurr : ℤ}
    (notNegative : 0 ≤ actualBound)
    (above : actualBound < rPrev)
    (remainders : Remainders modulus residue rPrev rCurr tPrev tCurr) :
    ∃ lastPrev lastCurr cofactorPrev cofactorCurr,
      reconstructLoop actualBound rPrev rCurr tPrev tCurr =
        some (lastCurr, cofactorCurr) ∧
      Remainders modulus residue lastPrev lastCurr cofactorPrev cofactorCurr ∧
      actualBound < lastPrev ∧
      lastCurr ≤ actualBound := by
  fun_induction reconstructLoop actualBound rPrev rCurr tPrev tCurr with
  | case1 rPrev tPrev tCurr large =>
      exact absurd notNegative (not_le.mpr large)
  | case2 rPrev rCurr tPrev tCurr large isNonzero quotient inductionHypothesis =>
      have positive : 0 < rCurr := notNegative.trans_lt large
      have truncated : quotient = rPrev / rCurr :=
        Int.tdiv_eq_ediv_of_nonneg (le_of_lt (positive.trans remainders.lower))
      refine inductionHypothesis large ?_
      rw [truncated]
      exact remainders.step positive
  | case3 rPrev rCurr tPrev tCurr small =>
      exact ⟨rPrev, rCurr, tPrev, tCurr, rfl, remainders, above, not_lt.mp small⟩

/-- The residue is brought into the range of the modulus. -/
theorem canonicalResidue_range
    {modulus : ℤ}
    (positive : 0 < modulus)
    (residue : ℤ) :
    0 ≤ (residue.tmod modulus + modulus).tmod modulus ∧
      (residue.tmod modulus + modulus).tmod modulus < modulus ∧
      (residue.tmod modulus + modulus).tmod modulus ≡ residue [ZMOD modulus] := by
  have lower := Int.lt_tmod_of_pos residue positive
  have congruent : ∀ value : ℤ, value.tmod modulus ≡ value [ZMOD modulus] := by
    intro value
    refine (Int.modEq_iff_dvd.mpr ⟨value.tdiv modulus, ?_⟩)
    linear_combination -Int.tdiv_mul_add_tmod value modulus
  refine ⟨Int.tmod_nonneg _ (by omega), Int.tmod_lt_of_pos _ positive, ?_⟩
  calc
    (residue.tmod modulus + modulus).tmod modulus ≡
        residue.tmod modulus + modulus [ZMOD modulus] := congruent _
    _ ≡ residue.tmod modulus [ZMOD modulus] := Int.add_modulus_modEq_iff.mpr rfl
    _ ≡ residue [ZMOD modulus] := congruent residue

/-- A quotient of coprime integers has them, up to a sign, as its lowest terms. -/
theorem exists_sign_num_den
    {numerator denominator : ℤ}
    (isNonzero : denominator ≠ 0)
    (lowest : Int.gcd numerator denominator = 1) :
    ∃ sign : ℤ,
      (sign = 1 ∨ sign = -1) ∧
      ((numerator / denominator : ℚ)).num = sign * numerator ∧
      (((numerator / denominator : ℚ)).den : ℤ) = sign * denominator := by
  rcases lt_or_gt_of_ne isNonzero with negative | positive
  · have negated :
        (numerator / denominator : ℚ) = ((-numerator : ℤ) / (-denominator : ℤ)) := by
      push_cast
      rw [neg_div_neg_eq]
    have negatedLowest : Nat.Coprime (-numerator).natAbs (-denominator).natAbs := by
      rw [Int.natAbs_neg, Int.natAbs_neg]
      exact lowest
    refine ⟨-1, Or.inr rfl, ?_, ?_⟩
    · rw [negated, Rat.num_div_eq_of_coprime (by omega) negatedLowest, neg_one_mul]
    · rw [negated, Rat.den_div_eq_of_coprime (by omega) negatedLowest, neg_one_mul]
  · refine ⟨1, Or.inl rfl, ?_, ?_⟩
    · rw [Rat.num_div_eq_of_coprime positive lowest, one_mul]
    · rw [Rat.den_div_eq_of_coprime positive lowest, one_mul]

/-- A coprime remainder and cofactor within the bound make a small fraction. -/
theorem isSmall_div
    {modulus residue bound numerator denominator : ℤ}
    (isNonzero : denominator ≠ 0)
    (lowest : Int.gcd numerator denominator = 1)
    (numeratorBounded : |numerator| ≤ bound)
    (denominatorBounded : |denominator| ≤ bound)
    (congruent : numerator ≡ denominator * residue [ZMOD modulus]) :
    IsSmall modulus residue bound
      ((numerator / denominator : ℚ)).num ((numerator / denominator : ℚ)).den := by
  obtain ⟨sign, isSign, isNumerator, isDenominator⟩ :=
    exists_sign_num_den isNonzero lowest
  have signAbs : |sign| = 1 := by
    rcases isSign with rfl | rfl <;> rfl
  have denPositive : 0 < (((numerator / denominator : ℚ)).den : ℤ) :=
    Int.natCast_pos.mpr (Rat.den_pos _)
  have den_eq : (((numerator / denominator : ℚ)).den : ℤ) = |denominator| := by
    rw [← abs_of_pos denPositive, isDenominator, abs_mul, signAbs, one_mul]
  refine
    { numeratorBounded := ?_
      denominatorPositive := denPositive
      denominatorBounded := den_eq ▸ denominatorBounded
      lowest := (Rat.reduced _)
      invertible := ?_
      congruent := ?_ }
  · rw [isNumerator, abs_mul, signAbs, one_mul]
    exact numeratorBounded
  · rw [den_eq, Int.gcd, Int.natAbs_abs]
    exact SmallFraction.gcd_modulus_eq_one congruent lowest
  · rw [isNumerator, isDenominator, mul_assoc]
    exact congruent.mul_left sign

/--
Reconstruction returns a value exactly when there is a small fraction with the
residue, and the value is that fraction, which is the only one.
-/
def FindsSmallFraction
    (residue modulus : ℤ)
    (given : Option ℤ)
    (bound : ℤ) :
    Prop :=
  ∃ result,
    reconstruct residue modulus given = .ok result ∧
    (result.isSome ↔
      ∃ numerator denominator, IsSmall modulus residue bound numerator denominator) ∧
    (∀ value,
      result = some value →
      IsSmall modulus residue bound value.num value.den) ∧
    ∀ numerator denominator otherNumerator otherDenominator,
      IsSmall modulus residue bound numerator denominator →
      IsSmall modulus residue bound otherNumerator otherDenominator →
      numerator = otherNumerator ∧ denominator = otherDenominator

/-- What `reconstruct` does once its bound is known. -/
theorem reconstruct_eq
    {residue modulus actualBound : ℤ}
    {given : Option ℤ}
    (positive : 0 < modulus)
    (isBound :
      given = some actualBound ∨
        given = none ∧ isqrt (modulus.tdiv 2) = .ok actualBound)
    {numerator denominator : ℤ}
    (looped :
      reconstructLoop actualBound modulus
        ((residue.tmod modulus + modulus).tmod modulus) 0 1 =
          some (numerator, denominator)) :
    reconstruct residue modulus given =
      if |denominator| = 0 ∨ actualBound < |denominator| then
        .ok none
      else if Int.gcd |numerator| |denominator| ≠ 1 then
        .ok none
      else
        .ok (some (numerator / denominator)) := by
  rcases isBound with rfl | ⟨rfl, rooted⟩
  · simp only [reconstruct, if_pos positive, ok_bind, looped]
  · simp only [reconstruct, if_pos positive, rooted, ok_bind, looped]

/-- With a bound that is small enough, the small fraction is found. -/
theorem finds_of_bound
    {residue modulus actualBound : ℤ}
    {given : Option ℤ}
    (positive : 0 < modulus)
    (isBound :
      given = some actualBound ∨
        given = none ∧ isqrt (modulus.tdiv 2) = .ok actualBound)
    (notNegative : 0 ≤ actualBound)
    (boundSmall : 2 * actualBound ^ 2 < modulus) :
    FindsSmallFraction residue modulus given actualBound := by
  obtain ⟨residueNotNegative, residueLower, sameResidue⟩ :=
    canonicalResidue_range positive residue
  have above : actualBound < modulus := by nlinarith
  obtain ⟨lastPrev, numerator, cofactorPrev, denominator, looped, remainders, lastAbove,
    reached⟩ :=
    reconstructLoop_remainders notNegative above
      (Remainders.start residueNotNegative residueLower)
  have isNonzero : denominator ≠ 0 := remainders.cofactor_ne_zero
  have multiple :
      ∀ {top bottom : ℤ},
        IsSmall modulus residue actualBound top bottom →
        ∃ factor, top = factor * numerator ∧ bottom = factor * denominator :=
    fun small =>
      remainders.exists_multiple boundSmall lastAbove reached
        (small.congr_residue sameResidue.symm)
  have unique :
      ∀ top bottom otherTop otherBottom,
        IsSmall modulus residue actualBound top bottom →
        IsSmall modulus residue actualBound otherTop otherBottom →
        top = otherTop ∧ bottom = otherBottom :=
    fun _ _ _ _ small otherSmall => small.unique boundSmall otherSmall
  rw [FindsSmallFraction, reconstruct_eq positive isBound looped]
  split
  · rename_i outside
    refine ⟨none, rfl, ?_, by simp, unique⟩
    simp only [Option.isSome_none, Bool.false_eq_true, false_iff]
    rintro ⟨top, bottom, small⟩
    obtain ⟨factor, -, isMultiple⟩ := multiple small
    have cofactorBounded : |denominator| ≤ actualBound := by
      have divides : denominator ∣ bottom := Dvd.intro_left factor isMultiple.symm
      exact (Int.le_of_dvd small.denominatorPositive ((abs_dvd _ _).mpr divides)).trans
        small.denominatorBounded
    rcases outside with isZero | large
    · exact isNonzero (abs_eq_zero.mp isZero)
    · exact absurd cofactorBounded (not_le.mpr large)
  · rename_i inside
    have cofactorBounded : |denominator| ≤ actualBound :=
      not_lt.mp (fun large => inside (Or.inr large))
    have sameGcd : Int.gcd |numerator| |denominator| = Int.gcd numerator denominator := by
      rw [Int.gcd, Int.natAbs_abs, Int.natAbs_abs]
      rfl
    split
    · rename_i notLowest
      refine ⟨none, rfl, ?_, by simp, unique⟩
      simp only [Option.isSome_none, Bool.false_eq_true, false_iff]
      rintro ⟨top, bottom, small⟩
      obtain ⟨factor, isTop, isBottom⟩ := multiple small
      have lowest := small.lowest
      rw [isTop, isBottom, Int.gcd_mul_left] at lowest
      rw [sameGcd] at notLowest
      exact notLowest (Nat.eq_one_of_mul_eq_one_left lowest)
    · rename_i lowest
      have lowest : Int.gcd numerator denominator = 1 := by
        rw [← sameGcd]
        exact not_not.mp lowest
      have small :
          IsSmall modulus residue actualBound
            ((numerator / denominator : ℚ)).num ((numerator / denominator : ℚ)).den := by
        refine (isSmall_div isNonzero lowest ?_ cofactorBounded
          remainders.current).congr_residue sameResidue
        rw [abs_of_nonneg remainders.notNegative]
        exact reached
      refine ⟨_, rfl, ?_, ?_, unique⟩
      · simpa using ⟨_, _, small⟩
      · rintro value ⟨⟩
        exact small

/-- The default bound for an odd modulus is small enough. -/
theorem exists_default_bound
    {modulus : ℤ}
    (positive : 0 < modulus)
    (isOdd : Odd modulus) :
    ∃ bound,
      isqrt (modulus.tdiv 2) = .ok bound ∧
      0 ≤ bound ∧
      2 * bound ^ 2 < modulus := by
  obtain ⟨half, rfl⟩ := isOdd
  have halved : (2 * half + 1).tdiv 2 = (half.toNat : ℤ) := by
    rw [Int.tdiv_eq_ediv_of_nonneg (le_of_lt positive)]
    omega
  have root := isqrt_eq_sqrt half.toNat
  have square : (Nat.sqrt half.toNat : ℤ) ^ 2 ≤ half.toNat := by
    exact_mod_cast Nat.sqrt_le' half.toNat
  rw [← halved] at root
  exact ⟨_, root, Int.natCast_nonneg _, by omega⟩

/--
Rational reconstruction with a bound `B` such that `2 * B ^ 2` is below the modulus, and
with the default bound for an odd modulus.
-/
theorem reconstruct_findsSmallFraction
    {modulus : ℤ}
    (positive : 0 < modulus)
    (residue : ℤ) :
    (∀ bound,
      0 ≤ bound →
      2 * bound ^ 2 < modulus →
      FindsSmallFraction residue modulus (some bound) bound) ∧
      (1 < modulus →
        Odd modulus →
        ∃ bound,
          isqrt (modulus.tdiv 2) = .ok bound ∧
          0 ≤ bound ∧
          2 * bound ^ 2 < modulus ∧
          FindsSmallFraction residue modulus none bound) := by
  constructor
  · intro bound notNegative small
    exact finds_of_bound positive (Or.inl rfl) notNegative small
  · intro _ isOdd
    obtain ⟨bound, root, notNegative, small⟩ := exists_default_bound positive isOdd
    exact ⟨bound, root, notNegative, small,
      finds_of_bound positive (Or.inr ⟨rfl, root⟩) notNegative small⟩

/-- The inverse of 2 modulo 101 is 51. -/
theorem reconstruct_findsSmallFraction_half :
    FindsSmallFraction 51 101 (some 7) 7 ∧
      ∃ bound, isqrt 50 = .ok bound ∧ FindsSmallFraction 51 101 none bound := by
  obtain ⟨withBound, withDefault⟩ :=
    reconstruct_findsSmallFraction (show (0 : ℤ) < 101 by decide) 51
  refine ⟨withBound 7 (by decide) (by decide), ?_⟩
  obtain ⟨bound, isBound, -, -, finds⟩ := withDefault (by decide) ⟨50, by decide⟩
  exact ⟨bound, isBound, finds⟩

end NumericaCore
