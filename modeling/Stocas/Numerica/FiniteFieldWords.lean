import Stocas.Library.WordPrimes
import Stocas.Numerica.FiniteField
import Stocas.Numerica.Rational

namespace NumericaCore

/-!
# Finite fields in every word width

The operations of a field of `w`-bit words compute modulo `p` for every modulus from 2 up
to `2 ^ w - 1`, although sums and differences may wrap.  Products have a second version
for compilers without 128-bit integers, which doubles and adds modulo `p`.
-/

namespace FiniteField

variable {width : ℕ}

/-- `add_mod`, which never exceeds the word. -/
def addMod (modulus x y : BitVec width) : BitVec width :=
  if modulus - y ≤ x then
    x - (modulus - y)
  else
    x + y

/-- The loop of the portable `mul_mod_u64`. -/
def mulModLoop (modulus a b result : BitVec width) : BitVec width :=
  if 0 < b then
    mulModLoop modulus (addMod modulus a a) (b >>> 1)
      (if b &&& 1 ≠ 0 then addMod modulus result a else result)
  else
    result
termination_by b.toNat
decreasing_by
  rename_i positive
  have positive : 0 < b.toNat := by
    simpa [BitVec.lt_def] using positive
  rw [BitVec.toNat_ushiftRight, Nat.shiftRight_one]
  exact Nat.div_lt_self positive (by decide)

/-- `mul_mod_u64` without a 128-bit type: Russian-peasant multiplication. -/
def mulModPortable (a b modulus : BitVec width) : BitVec width :=
  mulModLoop modulus (a % modulus) b 0

variable {modulus : BitVec width}

/-- `add_mod` adds modulo the modulus. -/
theorem toNat_addMod
    {x y : BitVec width}
    (xBelow : x.toNat < modulus.toNat)
    (yBelow : y.toNat < modulus.toNat) :
    (addMod modulus x y).toNat = (x.toNat + y.toNat) % modulus.toNat := by
  have inRange := modulus.isLt
  have complement : (modulus - y).toNat = modulus.toNat - y.toNat :=
    BitVec.toNat_sub_of_le (BitVec.le_def.mpr (le_of_lt yBelow))
  rw [addMod]
  split_ifs with wraps
  · rw [BitVec.toNat_sub_of_le wraps, complement]
    rw [BitVec.le_def, complement] at wraps
    rw [Nat.mod_eq_sub_mod (by omega), Nat.mod_eq_of_lt (by omega)]
    omega
  · rw [BitVec.le_def, complement] at wraps
    rw [BitVec.toNat_add, Nat.mod_eq_of_lt (by omega), Nat.mod_eq_of_lt (by omega)]

/-- Residues that are reduced stay below the modulus. -/
theorem toNat_addMod_lt
    {x y : BitVec width}
    (xBelow : x.toNat < modulus.toNat)
    (yBelow : y.toNat < modulus.toNat) :
    (addMod modulus x y).toNat < modulus.toNat := by
  rw [toNat_addMod xBelow yBelow]
  exact Nat.mod_lt _ (Nat.zero_lt_of_lt xBelow)

/-- The loop adds the product of its two factors to its result. -/
theorem toNat_mulModLoop
    (one : (1 : BitVec width).toNat = 1)
    {a b result : BitVec width}
    (aBelow : a.toNat < modulus.toNat)
    (resultBelow : result.toNat < modulus.toNat) :
    (mulModLoop modulus a b result).toNat =
      (result.toNat + a.toNat * b.toNat) % modulus.toNat := by
  fun_induction mulModLoop modulus a b result with
  | case1 a b result positive inductionHypothesis =>
      have parity : (b &&& 1).toNat = b.toNat % 2 := by
        rw [BitVec.toNat_and, one, Nat.and_one_is_mod]
      have isOdd : b &&& 1 ≠ 0 ↔ b.toNat % 2 = 1 := by
        rw [Ne, ← BitVec.toNat_inj, parity]
        simp
      have halves := Nat.div_add_mod b.toNat 2
      have doubled := toNat_addMod aBelow aBelow
      have doubledBelow := toNat_addMod_lt aBelow aBelow
      simp only [dite_eq_ite] at inductionHypothesis
      by_cases odd : b &&& 1 ≠ 0
      · simp only [if_pos odd] at inductionHypothesis ⊢
        rw [inductionHypothesis doubledBelow (toNat_addMod_lt resultBelow aBelow),
          toNat_addMod resultBelow aBelow, doubled, BitVec.toNat_ushiftRight,
          Nat.shiftRight_one]
        rw [isOdd.mp odd] at halves
        have product :
            a.toNat * b.toNat = a.toNat + (a.toNat + a.toNat) * (b.toNat / 2) := by
          calc
            a.toNat * b.toNat = a.toNat * (2 * (b.toNat / 2) + 1) := by rw [halves]
            _ = a.toNat + (a.toNat + a.toNat) * (b.toNat / 2) := by ring
        rw [product, ← Nat.add_assoc, Nat.add_mod, Nat.mod_mod, Nat.mod_mul_mod,
          ← Nat.add_mod]
      · have even : b.toNat % 2 = 0 :=
          (Nat.mod_two_eq_zero_or_one _).resolve_right fun isOne => odd (isOdd.mpr isOne)
        simp only [if_neg odd] at inductionHypothesis ⊢
        rw [inductionHypothesis doubledBelow resultBelow, doubled, BitVec.toNat_ushiftRight,
          Nat.shiftRight_one]
        rw [even, Nat.add_zero] at halves
        have product : a.toNat * b.toNat = (a.toNat + a.toNat) * (b.toNat / 2) := by
          calc
            a.toNat * b.toNat = a.toNat * (2 * (b.toNat / 2)) := by rw [halves]
            _ = (a.toNat + a.toNat) * (b.toNat / 2) := by ring
        rw [product, Nat.add_mod, Nat.mod_mul_mod, ← Nat.add_mod]
  | case2 a b result done =>
      have isZero : b.toNat = 0 := by
        simpa [BitVec.lt_def] using done
      rw [isZero, Nat.mul_zero, Nat.add_zero, Nat.mod_eq_of_lt resultBelow]

section Operations

variable [large : Fact (1 < modulus.toNat)]

/-- Both versions of `mul_mod_u64` return the product modulo the modulus. -/
theorem mulModPortable_eq (a b : BitVec width) :
    mulModPortable a b modulus = mulMod a b modulus := by
  have positive : 0 < modulus.toNat := Nat.zero_lt_of_lt large.out
  have reduced : (a % modulus).toNat < modulus.toNat := by
    rw [BitVec.toNat_umod]
    exact Nat.mod_lt _ positive
  apply BitVec.eq_of_toNat_eq
  rw [mulModPortable, toNat_mulModLoop (toNat_one modulus) reduced (by simpa using positive),
    toNat_mulMod, BitVec.toNat_umod]
  simp [Nat.mod_mul_mod]

/-- `inv`. -/
def inverse (operand : FiniteField modulus) : Except DomainError (FiniteField modulus) :=
  if operand.value = 0 then
    .error ⟨"FiniteField: zero has no multiplicative inverse"⟩
  else
    .ok (invLoop operand 1 (modulus - 2))

/-- The operators on two elements are those of the integers modulo the modulus. -/
structure ModularArithmetic (a b : FiniteField modulus) : Prop where
  inRange : a.value.toNat < modulus.toNat
  add : (a + b).value.toNat = (a.value.toNat + b.value.toNat) % modulus.toNat
  sub : ((a - b).value.toNat : ℤ) = ((a.value.toNat : ℤ) - b.value.toNat) % modulus.toNat
  neg : ((-a).value.toNat : ℤ) = (-(a.value.toNat : ℤ)) % modulus.toNat
  mul : (a * b).value.toNat = a.value.toNat * b.value.toNat % modulus.toNat

theorem modularArithmetic (a b : FiniteField modulus) : ModularArithmetic a b where
  inRange := a.toNat_value_lt
  add := toNat_add a b
  sub := by
    have below := le_of_lt b.toNat_value_lt
    have shifted :
        ((a.value.toNat + (modulus.toNat - b.value.toNat) : ℕ) : ℤ) =
          (a.value.toNat : ℤ) - b.value.toNat + modulus.toNat := by
      rw [Nat.cast_add, Nat.cast_sub below]
      ring
    rw [toNat_sub, Int.natCast_mod, shifted, Int.add_emod_right]
  neg := by
    have below := le_of_lt a.toNat_value_lt
    have shifted :
        ((modulus.toNat - a.value.toNat : ℕ) : ℤ) =
          -(a.value.toNat : ℤ) + modulus.toNat := by
      rw [Nat.cast_sub below]
      ring
    rw [toNat_neg, Int.natCast_mod, shifted, Int.add_emod_right]
  mul := toNat_mul a b

/-- Modulo a prime, `inv` inverts every element except zero. -/
theorem mul_inverse
    (isPrime : modulus.toNat.Prime)
    {a : FiniteField modulus}
    (nonzero : a.value ≠ 0) :
    ∃ inverted, a.inverse = .ok inverted ∧ a * inverted = 1 := by
  have primeFact : Fact modulus.toNat.Prime := ⟨isPrime⟩
  have isInverse : a⁻¹ = invLoop a 1 (modulus - 2) := if_neg nonzero
  refine ⟨invLoop a 1 (modulus - 2), if_neg nonzero, ?_⟩
  rw [← isInverse]
  exact mul_inv_cancel₀ fun isZero => nonzero (value_eq_zero_iff.mpr isZero)

/--
For every modulus above 1 of any word width the operators compute modulo it, and both
versions of `mul_mod_u64` agree; for a prime modulus `inv` inverts, and it throws for zero.
-/
theorem finiteField_exact :
    (∀ a b : FiniteField modulus, ModularArithmetic a b) ∧
    (∀ a b : BitVec width,
      a < modulus →
      b < modulus →
      mulModPortable a b modulus = mulMod a b modulus) ∧
    (modulus.toNat.Prime →
      ∀ a : FiniteField modulus,
        a.value ≠ 0 →
        ∃ inverted, a.inverse = .ok inverted ∧ a * inverted = 1) ∧
    (∀ a : FiniteField modulus,
      a.value = 0 →
      a.inverse = .error ⟨"FiniteField: zero has no multiplicative inverse"⟩) :=
  ⟨modularArithmetic, fun a b _ _ => mulModPortable_eq a b,
    fun isPrime _ nonzero => mul_inverse isPrime nonzero, fun _ isZero => if_pos isZero⟩

omit large in
/-- A prime modulus above 2^63, for which sums and differences wrap. -/
theorem finiteField_exact_goldilocks :
    haveI : Fact (1 < (18446744069414584321 : BitVec 64).toNat) := ⟨by decide⟩
    (∀ a b : FiniteField (18446744069414584321 : BitVec 64), ModularArithmetic a b) ∧
    (∀ a b : BitVec 64,
      a < 18446744069414584321 →
      b < 18446744069414584321 →
      mulModPortable a b 18446744069414584321 = mulMod a b 18446744069414584321) ∧
    (∀ a : FiniteField (18446744069414584321 : BitVec 64),
      a.value ≠ 0 →
      ∃ inverted, a.inverse = .ok inverted ∧ a * inverted = 1) := by
  have large : Fact (1 < (18446744069414584321 : BitVec 64).toNat) := ⟨by decide⟩
  obtain ⟨arithmetic, versions, inverts, -⟩ :=
    @finiteField_exact 64 (18446744069414584321 : BitVec 64) large
  exact ⟨arithmetic, versions, inverts WordPrimes.prime_goldilocks⟩

end Operations

end FiniteField

end NumericaCore
