import Mathlib.RingTheory.MvPolynomial.Groebner
import Stocas.Library.GreatestCommonDivisor

namespace MonicDivision

open GreatestCommonDivisor (IsGcd)
open MonomialOrder MvPolynomial

/-!
# Monic divisors over a smaller ring

A monic polynomial that divides another over a field divides it over every subring
that has the coefficients of both.  A ring homomorphism keeps the degree of a monic
polynomial.
-/

variable {σ : Type*} {order : MonomialOrder σ}
variable {O F : Type*} [CommRing O] [Field F]

/-- A homomorphism to a nontrivial ring keeps the degree of a monic polynomial. -/
theorem degree_map_of_monic
    {S : Type*}
    [CommRing S]
    [Nontrivial S]
    (hom : O →+* S)
    {poly : MvPolynomial σ O}
    (monic : order.Monic poly) :
    order.degree (map hom poly) = order.degree poly := by
  refine order.toSyn.injective (le_antisymm ?_ ?_)
  · rw [degree_le_iff]
    intro exponents member
    exact le_degree (support_map_subset hom poly member)
  · refine le_degree ?_
    rw [mem_support_iff, coeff_map, monic.coeff_degree, map_one]
    exact one_ne_zero

/-- A homomorphism keeps monic polynomials monic. -/
theorem monic_map
    {S : Type*}
    [CommRing S]
    [Nontrivial S]
    (hom : O →+* S)
    {poly : MvPolynomial σ O}
    (monic : order.Monic poly) :
    order.Monic (map hom poly) := by
  rw [Monic, leadingCoeff, degree_map_of_monic hom monic, coeff_map,
    monic.coeff_degree, map_one]

/-- An injective homomorphism keeps degrees. -/
theorem degree_map_of_injective
    {S : Type*}
    [CommRing S]
    {hom : O →+* S}
    (injective : Function.Injective hom)
    (poly : MvPolynomial σ O) :
    order.degree (map hom poly) = order.degree poly := by
  rw [degree, degree, support_map_of_injective poly injective]

/-- A polynomial is monic if its image under an injective homomorphism is. -/
theorem monic_of_map
    {S : Type*}
    [CommRing S]
    {hom : O →+* S}
    (injective : Function.Injective hom)
    {poly : MvPolynomial σ O}
    (monic : order.Monic (map hom poly)) :
    order.Monic poly := by
  have leading := monic.leadingCoeff_eq_one
  rw [leadingCoeff, degree_map_of_injective injective, coeff_map] at leading
  exact injective (leading.trans (map_one hom).symm)

/-- Division by a monic polynomial over a field stays in the ring of coefficients. -/
theorem dvd_of_map_dvd
    {inclusion : O →+* F}
    (injective : Function.Injective inclusion)
    {divisor dividend : MvPolynomial σ O}
    (monic : order.Monic divisor)
    (divides : map inclusion divisor ∣ map inclusion dividend) :
    divisor ∣ dividend := by
  have unitLeading : IsUnit (order.leadingCoeff divisor) := by
    rw [monic.leadingCoeff_eq_one]
    exact isUnit_one
  obtain ⟨quotient, remainder, division, _, irreducible⟩ :=
    order.div_single unitLeading dividend
  have dividesRemainder : map inclusion divisor ∣ map inclusion remainder := by
    rw [division, map_add, map_mul] at divides
    exact (dvd_add_right (dvd_mul_left _ _)).mp divides
  have remainderZero : remainder = 0 := by
    by_contra isNonzero
    have mapNonzero : map inclusion remainder ≠ 0 :=
      (map_ne_zero_iff _ (map_injective inclusion injective)).mpr isNonzero
    obtain ⟨cofactor, product⟩ := dividesRemainder
    have factorsNonzero : map inclusion divisor ≠ 0 ∧ cofactor ≠ 0 :=
      mul_ne_zero_iff.mp (product ▸ mapNonzero)
    have degrees :
        order.degree remainder = order.degree divisor + order.degree cofactor := by
      rw [← degree_map_of_injective injective, product,
        degree_mul factorsNonzero.1 factorsNonzero.2, degree_map_of_injective injective]
    refine irreducible (order.degree remainder) (order.degree_mem_support isNonzero) ?_
    rw [degrees]
    exact le_self_add
  rw [division, remainderZero, add_zero]
  exact dvd_mul_left divisor quotient

/-- Monic polynomials of which one divides the other are equal if their degrees are. -/
theorem eq_of_dvd_of_degree_le
    [Nontrivial O]
    {divisor dividend : MvPolynomial σ O}
    (divisorMonic : order.Monic divisor)
    (dividendMonic : order.Monic dividend)
    (divides : divisor ∣ dividend)
    (degree_le : order.degree dividend ≤ order.degree divisor) :
    dividend = divisor := by
  obtain ⟨cofactor, product⟩ := divides
  have cofactorNonzero : cofactor ≠ 0 := by
    intro isZero
    exact dividendMonic.ne_zero (by rw [product, isZero, mul_zero])
  have regular : IsRegular (order.leadingCoeff divisor) := by
    rw [divisorMonic.leadingCoeff_eq_one]
    exact isRegular_one
  have degrees : order.degree dividend = order.degree divisor + order.degree cofactor := by
    rw [product, degree_mul_of_isRegular_left regular cofactorNonzero]
  have constantDegree : order.degree cofactor = 0 := by
    rw [degrees, add_le_iff_nonpos_right] at degree_le
    exact nonpos_iff_eq_zero.mp degree_le
  have leading : order.leadingCoeff cofactor = 1 := by
    have multiplied :
        order.leadingCoeff (divisor * cofactor) =
          order.leadingCoeff divisor * order.leadingCoeff cofactor :=
      leadingCoeff_mul_of_isRegular_left regular
    rw [← product, dividendMonic.leadingCoeff_eq_one,
      divisorMonic.leadingCoeff_eq_one, one_mul] at multiplied
    exact multiplied.symm
  have isOne : cofactor = 1 := by
    rw [order.eq_C_of_degree_eq_zero constantDegree, leading, C_1]
  rw [product, isOne, mul_one]

/--
A monic common divisor over a field whose reduction is a gcd of the reductions is the
monic gcd over the field, as soon as that one has coefficients in the ring too.
-/
theorem eq_of_isGcd_map
    {k : Type*}
    [Field k]
    {inclusion : O →+* F}
    (injective : Function.Injective inclusion)
    (reduction : O →+* k)
    {left right candidate common : MvPolynomial σ O}
    (candidateMonic : order.Monic candidate)
    (commonMonic : order.Monic common)
    (dividesLeft : map inclusion candidate ∣ map inclusion left)
    (dividesRight : map inclusion candidate ∣ map inclusion right)
    (isGcd : IsGcd (map inclusion left) (map inclusion right) (map inclusion common))
    (reducedGcd :
      IsGcd (map reduction left) (map reduction right) (map reduction candidate)) :
    common = candidate := by
  have nontrivial : Nontrivial O := inclusion.domain_nontrivial
  have candidateDivides : candidate ∣ common :=
    dvd_of_map_dvd injective candidateMonic
      (isGcd.greatest _ dividesLeft dividesRight)
  have commonLeft : common ∣ left := dvd_of_map_dvd injective commonMonic isGcd.dvd_left
  have commonRight : common ∣ right :=
    dvd_of_map_dvd injective commonMonic isGcd.dvd_right
  obtain ⟨cofactor, product⟩ :=
    reducedGcd.greatest (map reduction common) (map_dvd (map reduction) commonLeft)
      (map_dvd (map reduction) commonRight)
  have candidateNonzero : map reduction candidate ≠ 0 :=
    (monic_map reduction candidateMonic).ne_zero
  have factorsNonzero : map reduction common ≠ 0 ∧ cofactor ≠ 0 :=
    mul_ne_zero_iff.mp (product ▸ candidateNonzero)
  have degrees :
      order.degree candidate = order.degree common + order.degree cofactor := by
    rw [← degree_map_of_monic reduction candidateMonic, product,
      degree_mul factorsNonzero.1 factorsNonzero.2,
      degree_map_of_monic reduction commonMonic]
  refine eq_of_dvd_of_degree_le candidateMonic commonMonic candidateDivides ?_
  rw [degrees]
  exact le_self_add

end MonicDivision
