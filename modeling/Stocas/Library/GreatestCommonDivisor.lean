import Mathlib.RingTheory.Polynomial.Content
import Mathlib.RingTheory.UniqueFactorizationDomain.GCDMonoid
import Mathlib.Tactic.LinearCombination

namespace GreatestCommonDivisor

open scoped Polynomial
open Polynomial (C C_0 C_mul coeff_C_mul C_ne_zero C_dvd_iff_dvd_coeff natDegree_mul
  natDegree_eq_zero isUnit_C associated_primPart_mul isUnit_primPart_C)

/-!
# Greatest common divisors without a chosen gcd

`IsGcd` says that an element is a greatest common divisor of two others.  Over a
ring with greatest common divisors, those of two polynomials are found from their
contents and from their primitive parts, where a common divisor of the greatest
degree is a greatest common divisor.
-/

/-- `common` divides both elements and every common divisor divides it. -/
structure IsGcd
    {M : Type*}
    [CommMonoid M]
    (left right common : M) :
    Prop where
  dvd_left : common ∣ left
  dvd_right : common ∣ right
  greatest : ∀ divisor, divisor ∣ left → divisor ∣ right → divisor ∣ common

namespace IsGcd

section Monoid

variable {M : Type*} [CommMonoid M]

/-- The divisors of a greatest common divisor are the common divisors. -/
theorem dvd_iff
    {left right common divisor : M}
    (isGcd : IsGcd left right common) :
    divisor ∣ common ↔ divisor ∣ left ∧ divisor ∣ right :=
  ⟨fun divides => ⟨divides.trans isGcd.dvd_left, divides.trans isGcd.dvd_right⟩,
    fun divides => isGcd.greatest divisor divides.1 divides.2⟩

/-- Elements that divide each other are greatest common divisors together. -/
theorem of_dvd_dvd
    {left right common other : M}
    (isGcd : IsGcd left right common)
    (dividesOther : common ∣ other)
    (otherDivides : other ∣ common) :
    IsGcd left right other where
  dvd_left := otherDivides.trans isGcd.dvd_left
  dvd_right := otherDivides.trans isGcd.dvd_right
  greatest divisor dividesLeft dividesRight :=
    (isGcd.greatest divisor dividesLeft dividesRight).trans dividesOther

/-- An isomorphism carries greatest common divisors over. -/
theorem of_map
    {N : Type*}
    [CommMonoid N]
    (iso : M ≃* N)
    {left right common : M}
    (isGcd : IsGcd (iso left) (iso right) (iso common)) :
    IsGcd left right common where
  dvd_left := (map_dvd_iff iso).mp isGcd.dvd_left
  dvd_right := (map_dvd_iff iso).mp isGcd.dvd_right
  greatest divisor dividesLeft dividesRight :=
    (map_dvd_iff iso).mp
      (isGcd.greatest (iso divisor) (map_dvd iso dividesLeft) (map_dvd iso dividesRight))

end Monoid

section Ring

variable {R : Type*} [CommRing R]

theorem zero_left
    (value : R) :
    IsGcd 0 value value where
  dvd_left := dvd_zero value
  dvd_right := dvd_refl value
  greatest _ _ divides := divides

theorem zero_right
    (value : R) :
    IsGcd value 0 value where
  dvd_left := dvd_refl value
  dvd_right := dvd_zero value
  greatest _ divides _ := divides

/-- The step of the Euclidean algorithm. -/
theorem of_remainder
    {dividend divisor quotient remainder common : R}
    (division : dividend = quotient * divisor + remainder)
    (isGcd : IsGcd divisor remainder common) :
    IsGcd dividend divisor common where
  dvd_left := by
    rw [division]
    exact dvd_add (isGcd.dvd_left.mul_left quotient) isGcd.dvd_right
  dvd_right := isGcd.dvd_left
  greatest candidate dividesDividend dividesDivisor := by
    refine isGcd.greatest candidate dividesDivisor ?_
    have isRemainder : remainder = dividend - quotient * divisor := by
      linear_combination -division
    rw [isRemainder]
    exact dvd_sub dividesDividend (dividesDivisor.mul_left quotient)

end Ring

end IsGcd

section LowestTerms

variable {R : Type*} [CommRing R] [IsDomain R]

/-- What is left after dividing by a greatest common divisor has no common divisor. -/
theorem IsGcd.isRelPrime
    {left right common leftPart rightPart : R}
    (isGcd : IsGcd left right common)
    (isNonzero : common ≠ 0)
    (leftDivided : left = common * leftPart)
    (rightDivided : right = common * rightPart) :
    IsRelPrime leftPart rightPart := by
  intro divisor dividesLeft dividesRight
  have divides : common * divisor ∣ common * 1 := by
    rw [mul_one]
    apply isGcd.greatest
    · rw [leftDivided]
      exact mul_dvd_mul_left common dividesLeft
    · rw [rightDivided]
      exact mul_dvd_mul_left common dividesRight
  exact isUnit_of_dvd_one ((mul_dvd_mul_iff_left isNonzero).mp divides)

omit [IsDomain R] in
/-- Equal fractions in lowest terms have denominators that divide each other. -/
theorem dvd_of_cross_mul_eq
    [DecompositionMonoid R]
    {numerator denominator otherNumerator otherDenominator : R}
    (lowest : IsRelPrime numerator denominator)
    (same : numerator * otherDenominator = otherNumerator * denominator) :
    denominator ∣ otherDenominator := by
  apply lowest.symm.dvd_of_dvd_mul_left
  exact ⟨otherNumerator, same.trans (mul_comm otherNumerator denominator)⟩

end LowestTerms

section Primitive

variable {R : Type*} [CommRing R] [IsDomain R]

/-- Dividing a polynomial by the gcd of its coefficients leaves a primitive one. -/
theorem isPrimitive_of_content
    {whole part : R[X]}
    {content : R}
    (isNonzero : whole ≠ 0)
    (divided : whole = C content * part)
    (greatest : ∀ divisor, (∀ power, divisor ∣ whole.coeff power) → divisor ∣ content) :
    part.IsPrimitive := by
  intro divisor divides
  obtain ⟨rest, isRest⟩ := divides
  have contentNonzero : content ≠ 0 := by
    intro isZero
    exact isNonzero (by rw [divided, isZero, C_0, zero_mul])
  have dividesAll
      (power : ℕ) :
      content * divisor ∣ whole.coeff power := by
    refine ⟨rest.coeff power, ?_⟩
    rw [divided, isRest, ← mul_assoc, ← C_mul, coeff_C_mul]
  have dividesContent : content * divisor ∣ content * 1 := by
    rw [mul_one]
    exact greatest _ dividesAll
  exact isUnit_of_dvd_one ((mul_dvd_mul_iff_left contentNonzero).mp dividesContent)

variable [NormalizedGCDMonoid R]

/-- Gauss's lemma: a primitive divisor divides the primitive part. -/
theorem dvd_of_dvd_C_mul
    {divisor part : R[X]}
    {content : R}
    (divisorPrimitive : divisor.IsPrimitive)
    (partPrimitive : part.IsPrimitive)
    (contentNonzero : content ≠ 0)
    (divides : divisor ∣ C content * part) :
    divisor ∣ part := by
  have wholeNonzero : C content * part ≠ 0 :=
    mul_ne_zero (C_ne_zero.mpr contentNonzero) partPrimitive.ne_zero
  have dividesPrimPart : divisor ∣ (C content * part).primPart :=
    (divisorPrimitive.dvd_primPart_iff_dvd wholeNonzero).mpr divides
  have dividesProduct : divisor ∣ (C content).primPart * part := by
    have split := (associated_primPart_mul wholeNonzero).dvd
    rw [partPrimitive.primPart_eq] at split
    exact dividesPrimPart.trans split
  exact (isUnit_primPart_C content).dvd_mul_left.mp dividesProduct

/-- A gcd is the gcd of the contents times the gcd of the primitive parts. -/
theorem isGcd_of_parts
    {left right leftPart rightPart commonPart : R[X]}
    {leftContent rightContent commonContent : R}
    (leftNonzero : left ≠ 0)
    (rightNonzero : right ≠ 0)
    (leftDivided : left = C leftContent * leftPart)
    (rightDivided : right = C rightContent * rightPart)
    (leftGreatest :
      ∀ divisor, (∀ power, divisor ∣ left.coeff power) → divisor ∣ leftContent)
    (rightGreatest :
      ∀ divisor, (∀ power, divisor ∣ right.coeff power) → divisor ∣ rightContent)
    (contents : IsGcd leftContent rightContent commonContent)
    (parts : IsGcd leftPart rightPart commonPart) :
    IsGcd left right (C commonContent * commonPart) where
  dvd_left := by
    rw [leftDivided]
    exact mul_dvd_mul (map_dvd C contents.dvd_left) parts.dvd_left
  dvd_right := by
    rw [rightDivided]
    exact mul_dvd_mul (map_dvd C contents.dvd_right) parts.dvd_right
  greatest divisor dividesLeft dividesRight := by
    have contentDivides
        {whole : R[X]}
        (divides : divisor ∣ whole)
        (power : ℕ) :
        divisor.content ∣ whole.coeff power :=
      (C_dvd_iff_dvd_coeff _ _).mp (divisor.C_content_dvd.trans divides) power
    have partDivides
        {whole part : R[X]}
        {content : R}
        (isNonzero : whole ≠ 0)
        (divided : whole = C content * part)
        (greatest :
          ∀ divisor, (∀ power, divisor ∣ whole.coeff power) → divisor ∣ content)
        (divides : divisor ∣ whole) :
        divisor.primPart ∣ part := by
      have contentNonzero : content ≠ 0 := by
        intro isZero
        exact isNonzero (by rw [divided, isZero, C_0, zero_mul])
      exact dvd_of_dvd_C_mul divisor.isPrimitive_primPart
        (isPrimitive_of_content isNonzero divided greatest) contentNonzero
        (divided ▸ divisor.primPart_dvd.trans divides)
    have contentsDivide : divisor.content ∣ commonContent :=
      contents.greatest _ (leftGreatest _ (contentDivides dividesLeft))
        (rightGreatest _ (contentDivides dividesRight))
    have partsDivide : divisor.primPart ∣ commonPart :=
      parts.greatest _
        (partDivides leftNonzero leftDivided leftGreatest dividesLeft)
        (partDivides rightNonzero rightDivided rightGreatest dividesRight)
    rw [divisor.eq_C_content_mul_primPart]
    exact mul_dvd_mul (map_dvd C contentsDivide) partsDivide

/-- A common divisor of the greatest degree is a gcd when one side is primitive. -/
theorem isGcd_of_natDegree
    {left right common : R[X]}
    (leftPrimitive : left.IsPrimitive)
    (dividesLeft : common ∣ left)
    (dividesRight : common ∣ right)
    (greatestDegree :
      ∀ divisor, divisor ∣ left → divisor ∣ right →
        divisor.natDegree ≤ common.natDegree) :
    IsGcd left right common where
  dvd_left := dividesLeft
  dvd_right := dividesRight
  greatest divisor divisorLeft divisorRight := by
    have gcdNonzero : gcd left right ≠ 0 := by
      intro isZero
      exact leftPrimitive.ne_zero ((gcd_eq_zero_iff left right).mp isZero).1
    obtain ⟨cofactor, isCofactor⟩ := dvd_gcd dividesLeft dividesRight
    have factorsNonzero : common ≠ 0 ∧ cofactor ≠ 0 :=
      mul_ne_zero_iff.mp (isCofactor ▸ gcdNonzero)
    have degrees := natDegree_mul factorsNonzero.1 factorsNonzero.2
    have gcdDegree :=
      greatestDegree _ (gcd_dvd_left left right) (gcd_dvd_right left right)
    rw [isCofactor, degrees] at gcdDegree
    have constant : cofactor.natDegree = 0 := by omega
    obtain ⟨value, isValue⟩ := natDegree_eq_zero.mp constant
    have valueDivides : C value ∣ left := by
      rw [isValue]
      exact (Dvd.intro_left common isCofactor.symm).trans (gcd_dvd_left left right)
    have isUnit : IsUnit cofactor := by
      rw [← isValue]
      exact isUnit_C.mpr (leftPrimitive value valueDivides)
    have dividesGcd := dvd_gcd divisorLeft divisorRight
    rw [isCofactor] at dividesGcd
    exact isUnit.dvd_mul_right.mp dividesGcd

end Primitive

end GreatestCommonDivisor
