import Mathlib.Algebra.Field.ZMod
import Mathlib.Algebra.MvPolynomial.Eval
import Mathlib.Data.Rat.Cast.Lemmas
import Mathlib.Data.Rat.Lemmas

namespace PrimeIntegral

/-!
# Rationals that are integral at a prime

The rationals whose denominator is prime to `p` form a ring, which reduces to the
field with `p` elements.
-/

variable (prime : ℕ) [Fact prime.Prime]

/-- The rationals whose denominator does not vanish modulo the prime. -/
def integralAt : Subring ℚ where
  carrier := {value | (value.den : ZMod prime) ≠ 0}
  zero_mem' := by simp
  one_mem' := by simp
  add_mem' := by
    intro left right leftIntegral rightIntegral vanishes
    obtain ⟨cofactor, product⟩ := Rat.add_den_dvd left right
    have productCast := congrArg (Nat.cast (R := ZMod prime)) product
    push_cast at productCast
    rw [vanishes, zero_mul] at productCast
    exact mul_ne_zero leftIntegral rightIntegral productCast
  mul_mem' := by
    intro left right leftIntegral rightIntegral vanishes
    obtain ⟨cofactor, product⟩ := Rat.mul_den_dvd left right
    have productCast := congrArg (Nat.cast (R := ZMod prime)) product
    push_cast at productCast
    rw [vanishes, zero_mul] at productCast
    exact mul_ne_zero leftIntegral rightIntegral productCast
  neg_mem' := by
    intro value isIntegral
    simpa using isIntegral

theorem mem_integralAt
    {value : ℚ} :
    value ∈ integralAt prime ↔ (value.den : ZMod prime) ≠ 0 :=
  Iff.rfl

/-- Reduction modulo the prime. -/
def reduceAt : integralAt prime →+* ZMod prime where
  toFun value := ((value : ℚ) : ZMod prime)
  map_one' := Rat.cast_one
  map_zero' := Rat.cast_zero
  map_mul' left right := Rat.cast_mul_of_ne_zero left.2 right.2
  map_add' left right := Rat.cast_add_of_ne_zero left.2 right.2

@[simp] theorem reduceAt_apply
    (value : integralAt prime) :
    reduceAt prime value = ((value : ℚ) : ZMod prime) :=
  rfl

theorem subtype_injective :
    Function.Injective (integralAt prime).subtype :=
  Subtype.val_injective

/-- A polynomial with integral coefficients comes from the ring. -/
theorem exists_map_eq
    {σ : Type*}
    {poly : MvPolynomial σ ℚ}
    (coefficients : ∀ exponents, poly.coeff exponents ∈ integralAt prime) :
    ∃ lifted : MvPolynomial σ (integralAt prime),
      MvPolynomial.map (integralAt prime).subtype lifted = poly := by
  refine MvPolynomial.mem_range_map_iff_coeffs_subset.mpr ?_
  intro coefficient member
  obtain ⟨exponents, _, isCoefficient⟩ := MvPolynomial.mem_coeffs_iff.mp member
  exact ⟨⟨coefficient, isCoefficient ▸ coefficients exponents⟩, rfl⟩

end PrimeIntegral
