import Mathlib.Algebra.Order.Ring.Abs
import Mathlib.Data.Int.GCD
import Mathlib.Data.Int.ModEq
import Mathlib.RingTheory.Coprime.Lemmas
import Mathlib.Tactic.LinearCombination
import Mathlib.Tactic.Linarith
import Mathlib.Tactic.Ring

namespace SmallFraction

/-!
# Small fractions of a residue

A fraction whose numerator and denominator are bounded by `B`, with `2 * B ^ 2` below the
modulus, is determined by its residue.  The Euclidean algorithm on the modulus and the
residue meets it at the first remainder that is at most `B`.
-/

/-- The fraction is in lowest terms, is bounded, and has the residue. -/
structure IsSmall
    (modulus residue bound numerator denominator : ℤ) :
    Prop where
  numeratorBounded : |numerator| ≤ bound
  denominatorPositive : 0 < denominator
  denominatorBounded : denominator ≤ bound
  lowest : Int.gcd numerator denominator = 1
  invertible : Int.gcd denominator modulus = 1
  congruent : numerator ≡ denominator * residue [ZMOD modulus]

/-- Two consecutive remainders of the Euclidean algorithm and their cofactors. -/
structure Remainders
    (modulus residue rPrev rCurr tPrev tCurr : ℤ) :
    Prop where
  notNegative : 0 ≤ rCurr
  lower : rCurr < rPrev
  previous : rPrev ≡ tPrev * residue [ZMOD modulus]
  current : rCurr ≡ tCurr * residue [ZMOD modulus]
  alternate :
    ∃ sign : ℤ,
      (sign = 1 ∨ sign = -1) ∧
      0 ≤ -(sign * tPrev) ∧
      0 < sign * tCurr ∧
      rPrev * (sign * tCurr) + rCurr * -(sign * tPrev) = modulus

variable {modulus residue bound : ℤ}

/-- A multiple of the modulus that is at most `2 * B ^ 2` is zero. -/
theorem eq_of_modEq_of_abs_le
    (boundSmall : 2 * bound ^ 2 < modulus)
    {left right : ℤ}
    (congruent : left ≡ right [ZMOD modulus])
    (leftSmall : |left| ≤ bound * bound)
    (rightSmall : |right| ≤ bound * bound) :
    left = right := by
  have close : |right - left| < modulus := by
    calc
      |right - left| ≤ |right| + |left| := abs_sub _ _
      _ ≤ 2 * bound ^ 2 := by linarith
      _ < modulus := boundSmall
  have difference := Int.eq_zero_of_abs_lt_dvd congruent.dvd close
  exact (sub_eq_zero.mp difference).symm

/-- Two fractions in lowest terms with equal cross products are equal. -/
theorem eq_of_mul_eq_mul
    {numerator denominator otherNumerator otherDenominator : ℤ}
    (positive : 0 < denominator)
    (otherPositive : 0 < otherDenominator)
    (lowest : Int.gcd numerator denominator = 1)
    (otherLowest : Int.gcd otherNumerator otherDenominator = 1)
    (cross : numerator * otherDenominator = otherNumerator * denominator) :
    numerator = otherNumerator ∧ denominator = otherDenominator := by
  have divides : denominator ∣ otherDenominator := by
    refine Int.dvd_of_dvd_mul_right_of_gcd_one (Dvd.intro_left otherNumerator cross.symm) ?_
    rwa [Int.gcd_comm]
  have otherDivides : otherDenominator ∣ denominator := by
    refine Int.dvd_of_dvd_mul_right_of_gcd_one (Dvd.intro_left numerator cross) ?_
    rwa [Int.gcd_comm]
  have same : denominator = otherDenominator :=
    Int.dvd_antisymm (le_of_lt positive) (le_of_lt otherPositive) divides otherDivides
  rw [same] at cross
  exact ⟨mul_right_cancel₀ (ne_of_gt otherPositive) cross, same⟩

/-- There is at most one small fraction with a residue. -/
theorem IsSmall.unique
    (boundSmall : 2 * bound ^ 2 < modulus)
    {numerator denominator otherNumerator otherDenominator : ℤ}
    (small : IsSmall modulus residue bound numerator denominator)
    (otherSmall : IsSmall modulus residue bound otherNumerator otherDenominator) :
    numerator = otherNumerator ∧ denominator = otherDenominator := by
  refine eq_of_mul_eq_mul small.denominatorPositive otherSmall.denominatorPositive
    small.lowest otherSmall.lowest ?_
  have congruent :
      numerator * otherDenominator ≡ otherNumerator * denominator [ZMOD modulus] := by
    calc
      numerator * otherDenominator ≡
          denominator * residue * otherDenominator [ZMOD modulus] :=
        small.congruent.mul_right _
      _ = otherDenominator * residue * denominator := by ring
      _ ≡ otherNumerator * denominator [ZMOD modulus] :=
        (otherSmall.congruent.mul_right _).symm
  have bounded :
      ∀ {top bottom : ℤ},
        |top| ≤ bound →
        0 < bottom →
        bottom ≤ bound →
        |top * bottom| ≤ bound * bound := by
    intro top bottom topBounded positive bottomBounded
    rw [abs_mul, abs_of_pos positive]
    exact mul_le_mul topBounded bottomBounded (le_of_lt positive)
      ((abs_nonneg top).trans topBounded)
  exact eq_of_modEq_of_abs_le boundSmall congruent
    (bounded small.numeratorBounded otherSmall.denominatorPositive
      otherSmall.denominatorBounded)
    (bounded otherSmall.numeratorBounded small.denominatorPositive
      small.denominatorBounded)

/-- Only the residue class matters. -/
theorem IsSmall.congr_residue
    {otherResidue : ℤ}
    (same : residue ≡ otherResidue [ZMOD modulus])
    {numerator denominator : ℤ}
    (small : IsSmall modulus residue bound numerator denominator) :
    IsSmall modulus otherResidue bound numerator denominator :=
  { small with congruent := small.congruent.trans (same.mul_left denominator) }

/-- The algorithm starts with the modulus and the residue. -/
theorem Remainders.start
    (notNegative : 0 ≤ residue)
    (lower : residue < modulus) :
    Remainders modulus residue modulus residue 0 1 where
  notNegative := notNegative
  lower := lower
  previous := by
    rw [zero_mul]
    exact Int.modEq_zero_iff_dvd.mpr (dvd_refl modulus)
  current := by
    rw [one_mul]
  alternate := ⟨1, Or.inl rfl, by simp, by simp, by simp⟩

variable {rPrev rCurr tPrev tCurr : ℤ}

/-- A step of the algorithm keeps the two equations and the alternating signs. -/
theorem Remainders.step
    (remainders : Remainders modulus residue rPrev rCurr tPrev tCurr)
    (positive : 0 < rCurr) :
    Remainders modulus residue rCurr (rPrev - rPrev / rCurr * rCurr)
      tCurr (tPrev - rPrev / rCurr * tCurr) where
  notNegative := by
    rw [mul_comm, ← Int.emod_def]
    exact Int.emod_nonneg _ (ne_of_gt positive)
  lower := by
    rw [mul_comm, ← Int.emod_def]
    exact Int.emod_lt_of_pos _ positive
  previous := remainders.current
  current := by
    calc
      rPrev - rPrev / rCurr * rCurr ≡
          tPrev * residue - rPrev / rCurr * (tCurr * residue) [ZMOD modulus] :=
        remainders.previous.sub (remainders.current.mul_left _)
      _ = (tPrev - rPrev / rCurr * tCurr) * residue := by ring
  alternate := by
    obtain ⟨sign, isSign, previousSign, currentSign, identity⟩ := remainders.alternate
    have quotientPositive : 1 ≤ rPrev / rCurr :=
      Int.le_ediv_of_mul_le positive (by linarith [remainders.lower])
    refine ⟨-sign, ?_, ?_, ?_, ?_⟩
    · rcases isSign with rfl | rfl
      · exact Or.inr rfl
      · exact Or.inl (neg_neg 1)
    · linarith
    · have added : 0 < rPrev / rCurr * (sign * tCurr) := mul_pos quotientPositive currentSign
      linarith
    · linear_combination identity

/-- The current cofactor is not zero. -/
theorem Remainders.cofactor_ne_zero
    (remainders : Remainders modulus residue rPrev rCurr tPrev tCurr) :
    tCurr ≠ 0 := by
  obtain ⟨sign, _, _, currentSign, _⟩ := remainders.alternate
  exact right_ne_zero_of_mul (ne_of_gt currentSign)

/-- A combination below the previous remainder has a cofactor as large as the current. -/
theorem cofactor_le
    {previousFactor currentFactor previousCofactor currentCofactor : ℤ}
    (currentNotNegative : 0 ≤ rCurr)
    (previousCofactorNotNegative : 0 ≤ previousCofactor)
    (currentCofactorPositive : 0 < currentCofactor)
    (small : |previousFactor * rPrev + currentFactor * rCurr| ≤ bound)
    (above : bound < rPrev)
    (isNonzero : previousFactor ≠ 0) :
    currentCofactor ≤
      |-(previousFactor * previousCofactor) + currentFactor * currentCofactor| := by
  obtain ⟨lowerBound, upperBound⟩ := abs_le.mp small
  have previousPositive : 0 < rPrev := ((abs_nonneg _).trans small).trans_lt above
  rcases lt_or_gt_of_ne isNonzero with negative | positive
  · have large : previousFactor * rPrev ≤ -1 * rPrev :=
      mul_le_mul_of_nonneg_right (by omega) (le_of_lt previousPositive)
    have opposite : 0 < currentFactor := by
      by_contra notPositive
      have product : currentFactor * rCurr ≤ 0 :=
        mul_nonpos_of_nonpos_of_nonneg (not_lt.mp notPositive) currentNotNegative
      linarith
    have atLeast : 1 * currentCofactor ≤ currentFactor * currentCofactor :=
      mul_le_mul_of_nonneg_right opposite (le_of_lt currentCofactorPositive)
    have previousPart : previousFactor * previousCofactor ≤ 0 :=
      mul_nonpos_of_nonpos_of_nonneg (le_of_lt negative) previousCofactorNotNegative
    exact le_abs.mpr (Or.inl (by linarith))
  · have large : 1 * rPrev ≤ previousFactor * rPrev :=
      mul_le_mul_of_nonneg_right positive (le_of_lt previousPositive)
    have opposite : 0 < -currentFactor := by
      by_contra notNegative
      have product : 0 ≤ currentFactor * rCurr :=
        mul_nonneg (by linarith) currentNotNegative
      linarith
    have atLeast : 1 * currentCofactor ≤ -currentFactor * currentCofactor :=
      mul_le_mul_of_nonneg_right opposite (le_of_lt currentCofactorPositive)
    have previousPart : 0 ≤ previousFactor * previousCofactor :=
      mul_nonneg (le_of_lt positive) previousCofactorNotNegative
    exact le_abs.mpr (Or.inr (by linarith))

/-- At the first remainder within the bound, a small fraction is a multiple of it. -/
theorem Remainders.exists_multiple
    (remainders : Remainders modulus residue rPrev rCurr tPrev tCurr)
    (boundSmall : 2 * bound ^ 2 < modulus)
    (above : bound < rPrev)
    (reached : rCurr ≤ bound)
    {numerator denominator : ℤ}
    (small : IsSmall modulus residue bound numerator denominator) :
    ∃ factor, numerator = factor * rCurr ∧ denominator = factor * tCurr := by
  obtain ⟨sign, isSign, previousSign, currentSign, identity⟩ := remainders.alternate
  have modulusPositive : modulus ≠ 0 := by
    have squared := sq_nonneg bound
    intro isZero
    linarith
  have square : sign * sign = 1 := by
    rcases isSign with rfl | rfl <;> rfl
  -- Solve for the two factors; the determinant of the system is the modulus.
  have currentCross :
      numerator * tCurr ≡ denominator * rCurr [ZMOD modulus] := by
    calc
      numerator * tCurr ≡ denominator * residue * tCurr [ZMOD modulus] :=
        small.congruent.mul_right _
      _ = denominator * (tCurr * residue) := by ring
      _ ≡ denominator * rCurr [ZMOD modulus] := (remainders.current.mul_left _).symm
  have previousCross :
      numerator * tPrev ≡ denominator * rPrev [ZMOD modulus] := by
    calc
      numerator * tPrev ≡ denominator * residue * tPrev [ZMOD modulus] :=
        small.congruent.mul_right _
      _ = denominator * (tPrev * residue) := by ring
      _ ≡ denominator * rPrev [ZMOD modulus] := (remainders.previous.mul_left _).symm
  obtain ⟨previousFactor, isPrevious⟩ := currentCross.symm.dvd
  obtain ⟨currentFactor, isCurrent⟩ := previousCross.dvd
  have numerator_eq :
      numerator = sign * previousFactor * rPrev + sign * currentFactor * rCurr := by
    refine mul_left_cancel₀ modulusPositive ?_
    linear_combination
      -numerator * identity + sign * rPrev * isPrevious + sign * rCurr * isCurrent
  have denominator_eq :
      denominator = sign * previousFactor * tPrev + sign * currentFactor * tCurr := by
    refine mul_left_cancel₀ modulusPositive ?_
    linear_combination
      -denominator * identity + sign * tPrev * isPrevious + sign * tCurr * isCurrent
  have noPrevious : previousFactor = 0 := by
    by_contra isNonzero
    have signNonzero : sign ≠ 0 := left_ne_zero_of_mul (square ▸ one_ne_zero)
    have cofactorSmall : sign * tCurr ≤ bound := by
      calc
        sign * tCurr ≤
            |-(sign * previousFactor * -(sign * tPrev)) +
              sign * currentFactor * (sign * tCurr)| :=
          cofactor_le remainders.notNegative previousSign currentSign
            (numerator_eq ▸ small.numeratorBounded) above
            (mul_ne_zero signNonzero isNonzero)
        _ = |sign * denominator| := by
          congr 1
          linear_combination -sign * denominator_eq
        _ = denominator := by
          rw [abs_mul, abs_of_pos small.denominatorPositive]
          rcases isSign with rfl | rfl <;> simp
        _ ≤ bound := small.denominatorBounded
    have same : numerator * tCurr = denominator * rCurr := by
      refine eq_of_modEq_of_abs_le boundSmall currentCross ?_ ?_
      · have cofactorAbs : |tCurr| = sign * tCurr := by
          rcases isSign with rfl | rfl
          · rw [one_mul, abs_of_pos (by linarith)]
          · rw [abs_of_neg (by linarith), neg_one_mul]
        rw [abs_mul, cofactorAbs]
        exact mul_le_mul small.numeratorBounded cofactorSmall (le_of_lt currentSign)
          ((abs_nonneg _).trans small.numeratorBounded)
      · rw [abs_mul, abs_of_pos small.denominatorPositive,
          abs_of_nonneg remainders.notNegative]
        exact mul_le_mul small.denominatorBounded reached remainders.notNegative
          ((le_of_lt small.denominatorPositive).trans small.denominatorBounded)
    rw [same, sub_self] at isPrevious
    exact (mul_ne_zero modulusPositive isNonzero) isPrevious.symm
  refine ⟨sign * currentFactor, ?_, ?_⟩
  · rw [numerator_eq, noPrevious]
    ring
  · rw [denominator_eq, noPrevious]
    ring

/-- A remainder that is coprime to its cofactor has a cofactor that is invertible. -/
theorem gcd_modulus_eq_one
    (current : rCurr ≡ tCurr * residue [ZMOD modulus])
    (lowest : Int.gcd rCurr tCurr = 1) :
    Int.gcd tCurr modulus = 1 := by
  rw [← Int.isCoprime_iff_gcd_eq_one] at lowest ⊢
  obtain ⟨cofactor, product⟩ := current.dvd
  obtain ⟨left, right, combination⟩ := lowest
  refine ⟨left * residue + right, -(left * cofactor), ?_⟩
  linear_combination combination + left * product

end SmallFraction
