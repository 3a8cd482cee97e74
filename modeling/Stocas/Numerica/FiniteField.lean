import Mathlib.FieldTheory.Finite.Basic
import Mathlib.Tactic.Ring

namespace NumericaCore

/-!
# Prime fields in machine words

A `FiniteField<T>` keeps a canonical residue in a machine word of the modulus's width.
Additions and subtractions may wrap; products are formed at twice the width.
-/

/-- An element of `Z/pZ`, stored as a canonical residue in `[0, p)`. -/
@[ext] structure FiniteField {width : ℕ} (modulus : BitVec width) where
  value : BitVec width
  canonical : value < modulus
deriving DecidableEq

namespace FiniteField

variable {width : ℕ} {modulus : BitVec width}

section Operations

variable [large : Fact (1 < modulus.toNat)]

/-- The constructor reduces its value. -/
def ofValue (value : BitVec width) : FiniteField modulus where
  value := value % modulus
  canonical := by
    refine BitVec.umod_lt value ?_
    simpa [BitVec.lt_def] using lt_trans Nat.zero_lt_one large.out

/-- `mul_mod_u64` on the 128-bit product, and the 64-bit product for `uint32_t`. -/
def mulMod (a b modulus : BitVec width) : BitVec width :=
  let product := a.setWidth (2 * width) * b.setWidth (2 * width)
  (product % modulus.setWidth (2 * width)).setWidth width

instance : Zero (FiniteField modulus) where
  zero := ofValue 0

instance : One (FiniteField modulus) where
  one := ofValue 1

/-- `operator+`. -/
instance : Add (FiniteField modulus) where
  add left right :=
    let sum := left.value + right.value
    if modulus ≤ sum ∨ sum < left.value then
      ofValue (sum - modulus)
    else
      ofValue sum

/-- `operator-`. -/
instance : Sub (FiniteField modulus) where
  sub left right :=
    let diff := left.value - right.value
    if left.value < right.value then
      ofValue (diff + modulus)
    else
      ofValue diff

/-- `operator*`. -/
instance : Mul (FiniteField modulus) where
  mul left right := ofValue (mulMod left.value right.value modulus)

/-- Unary `operator-`. -/
instance : Neg (FiniteField modulus) where
  neg operand := ofValue (if operand.value = 0 then 0 else modulus - operand.value)

/-- The square-and-multiply loop of `inv`. -/
def invLoop
    (base result : FiniteField modulus)
    (exponent : BitVec width) :
    FiniteField modulus :=
  if 0 < exponent then
    invLoop (base * base)
      (if exponent &&& 1 ≠ 0 then result * base else result)
      (exponent >>> 1)
  else
    result
termination_by exponent.toNat
decreasing_by
  rename_i positive
  have positive : 0 < exponent.toNat := by
    simpa [BitVec.lt_def] using positive
  rw [BitVec.toNat_ushiftRight, Nat.shiftRight_one]
  exact Nat.div_lt_self positive (by decide)

/-- The result of `inv` for a value that is not zero. -/
instance : Inv (FiniteField modulus) where
  inv operand :=
    if operand.value = 0 then
      0
    else
      invLoop operand 1 (modulus - 2)

/-- A word as wide as the modulus can hold 1. -/
theorem toNat_one
    (modulus : BitVec width)
    [large : Fact (1 < modulus.toNat)] :
    (1 : BitVec width).toNat = 1 := by
  have unfolded : (1 : BitVec width).toNat = 1 % 2 ^ width := rfl
  rw [unfolded, Nat.mod_eq_of_lt (large.out.trans modulus.isLt)]

theorem toNat_ofValue
    (value : BitVec width) :
    (ofValue value : FiniteField modulus).value.toNat = value.toNat % modulus.toNat :=
  BitVec.toNat_umod

omit large in
/-- The value is below the modulus. -/
theorem toNat_value_lt
    (operand : FiniteField modulus) :
    operand.value.toNat < modulus.toNat :=
  BitVec.lt_def.mp operand.canonical

theorem toNat_add
    (left right : FiniteField modulus) :
    (left + right).value.toNat =
      (left.value.toNat + right.value.toNat) % modulus.toNat := by
  have leftLower := left.toNat_value_lt
  have rightLower := right.toNat_value_lt
  have inRange := modulus.isLt
  have unfolded :
      left + right =
        if modulus ≤ left.value + right.value ∨ left.value + right.value < left.value then
          ofValue (left.value + right.value - modulus)
        else
          ofValue (left.value + right.value) := rfl
  rw [unfolded]
  simp only [BitVec.le_def, BitVec.lt_def, BitVec.toNat_add]
  have wrapped :
      (left.value.toNat + right.value.toNat) % 2 ^ width =
        if left.value.toNat + right.value.toNat < 2 ^ width then
          left.value.toNat + right.value.toNat
        else
          left.value.toNat + right.value.toNat - 2 ^ width := by
    split
    · rename_i small
      exact Nat.mod_eq_of_lt small
    · rename_i large
      rw [Nat.mod_eq_sub_mod (not_lt.mp large), Nat.mod_eq_of_lt (by omega)]
  split
  · rename_i subtracts
    have atLeast : modulus.toNat ≤ left.value.toNat + right.value.toNat := by
      rw [wrapped] at subtracts
      split at subtracts <;> omega
    have difference :
        (left.value + right.value - modulus).toNat =
          left.value.toNat + right.value.toNat - modulus.toNat := by
      rw [BitVec.toNat_sub, BitVec.toNat_add, Nat.add_mod_mod,
        show 2 ^ width - modulus.toNat + (left.value.toNat + right.value.toNat) =
          left.value.toNat + right.value.toNat - modulus.toNat + 2 ^ width by omega,
        Nat.add_mod_right, Nat.mod_eq_of_lt (by omega)]
    rw [toNat_ofValue, difference, ← Nat.mod_eq_sub_mod atLeast]
  · rename_i keeps
    have small : left.value.toNat + right.value.toNat < 2 ^ width := by
      by_contra large
      rw [wrapped, if_neg large] at keeps
      omega
    rw [toNat_ofValue, BitVec.toNat_add, Nat.mod_eq_of_lt small]

theorem toNat_sub
    (left right : FiniteField modulus) :
    (left - right).value.toNat =
      (left.value.toNat + (modulus.toNat - right.value.toNat)) % modulus.toNat := by
  have leftLower := left.toNat_value_lt
  have rightLower := right.toNat_value_lt
  have inRange := modulus.isLt
  have unfolded :
      left - right =
        if left.value < right.value then
          ofValue (left.value - right.value + modulus)
        else
          ofValue (left.value - right.value) := rfl
  rw [unfolded]
  simp only [BitVec.lt_def]
  split
  · rename_i less
    have sum :
        (left.value - right.value + modulus).toNat =
          left.value.toNat + (modulus.toNat - right.value.toNat) := by
      rw [BitVec.toNat_add, BitVec.toNat_sub, Nat.mod_add_mod,
        show 2 ^ width - right.value.toNat + left.value.toNat + modulus.toNat =
          left.value.toNat + (modulus.toNat - right.value.toNat) + 2 ^ width by omega,
        Nat.add_mod_right, Nat.mod_eq_of_lt (by omega)]
    rw [toNat_ofValue, sum]
  · rename_i notLess
    have difference :
        (left.value - right.value).toNat = left.value.toNat - right.value.toNat :=
      BitVec.toNat_sub_of_le (BitVec.le_def.mpr (not_lt.mp notLess))
    rw [toNat_ofValue, difference,
      show left.value.toNat + (modulus.toNat - right.value.toNat) =
        left.value.toNat - right.value.toNat + modulus.toNat by omega,
      Nat.add_mod_right]

theorem toNat_mulMod
    (a b : BitVec width) :
    (mulMod a b modulus).toNat = a.toNat * b.toNat % modulus.toNat := by
  have aLower := a.isLt
  have bLower := b.isLt
  have double : 2 ^ (2 * width) = 2 ^ width * 2 ^ width := by
    rw [two_mul, pow_add]
  have widen :
      ∀ word : BitVec width, (word.setWidth (2 * width)).toNat = word.toNat := by
    intro word
    have lower := word.isLt
    have wider : 2 ^ width ≤ 2 ^ (2 * width) := Nat.pow_le_pow_right (by decide) (by omega)
    rw [BitVec.toNat_setWidth, Nat.mod_eq_of_lt (by omega)]
  have product : a.toNat * b.toNat < 2 ^ (2 * width) := by
    rw [double]
    exact Nat.mul_lt_mul'' aLower bLower
  have remainder : a.toNat * b.toNat % modulus.toNat < 2 ^ width :=
    (Nat.mod_lt _ (by have := large.out; omega)).trans modulus.isLt
  rw [mulMod, BitVec.toNat_setWidth, BitVec.toNat_umod, BitVec.toNat_mul, widen, widen,
    widen, Nat.mod_eq_of_lt product, Nat.mod_eq_of_lt remainder]

theorem toNat_mul
    (left right : FiniteField modulus) :
    (left * right).value.toNat =
      left.value.toNat * right.value.toNat % modulus.toNat := by
  have unfolded : left * right = ofValue (mulMod left.value right.value modulus) := rfl
  rw [unfolded, toNat_ofValue, toNat_mulMod, Nat.mod_mod]

theorem toNat_neg
    (operand : FiniteField modulus) :
    (-operand).value.toNat = (modulus.toNat - operand.value.toNat) % modulus.toNat := by
  have unfolded :
      -operand = ofValue (if operand.value = 0 then 0 else modulus - operand.value) := rfl
  have lower := operand.toNat_value_lt
  rw [unfolded, toNat_ofValue]
  split
  · rename_i isZero
    simp [isZero]
  · rw [BitVec.toNat_sub_of_le (BitVec.le_def.mpr (le_of_lt lower))]

omit large in
/-- The residue class of an element. -/
def toZMod (operand : FiniteField modulus) : ZMod modulus.toNat :=
  (operand.value.toNat : ZMod modulus.toNat)

/-- The element of a residue class. -/
def ofZMod (residue : ZMod modulus.toNat) : FiniteField modulus :=
  ofValue (BitVec.ofNat width residue.val)

omit large in
theorem toZMod_injective :
    Function.Injective (toZMod : FiniteField modulus → ZMod modulus.toNat) := by
  intro left right same
  have congruent := (ZMod.natCast_eq_natCast_iff' _ _ _).mp same
  rw [Nat.mod_eq_of_lt left.toNat_value_lt, Nat.mod_eq_of_lt right.toNat_value_lt]
    at congruent
  exact FiniteField.ext (BitVec.eq_of_toNat_eq congruent)

@[simp] theorem toZMod_ofZMod
    (residue : ZMod modulus.toNat) :
    (ofZMod residue).toZMod = residue := by
  have positive : NeZero modulus.toNat := ⟨by have := large.out; omega⟩
  have lower := residue.val_lt
  rw [toZMod, ofZMod, toNat_ofValue, BitVec.toNat_ofNat,
    Nat.mod_eq_of_lt (lower.trans modulus.isLt), Nat.mod_eq_of_lt lower,
    ZMod.natCast_zmod_val]

theorem toZMod_ofValue
    (value : BitVec width) :
    (ofValue value : FiniteField modulus).toZMod = value.toNat := by
  rw [toZMod, toNat_ofValue, ZMod.natCast_mod]

@[simp] theorem toZMod_zero : (0 : FiniteField modulus).toZMod = 0 := by
  have unfolded : (0 : FiniteField modulus) = ofValue 0 := rfl
  rw [unfolded, toZMod, toNat_ofValue]
  simp

@[simp] theorem toZMod_one : (1 : FiniteField modulus).toZMod = 1 := by
  have unfolded : (1 : FiniteField modulus) = ofValue 1 := rfl
  rw [unfolded, toZMod, toNat_ofValue, toNat_one modulus]
  simp

@[simp] theorem toZMod_add
    (left right : FiniteField modulus) :
    (left + right).toZMod = left.toZMod + right.toZMod := by
  rw [toZMod, toNat_add, ZMod.natCast_mod, Nat.cast_add]
  rfl

@[simp] theorem toZMod_sub
    (left right : FiniteField modulus) :
    (left - right).toZMod = left.toZMod - right.toZMod := by
  rw [toZMod, toNat_sub, ZMod.natCast_mod, Nat.cast_add,
    Nat.cast_sub (le_of_lt right.toNat_value_lt), ZMod.natCast_self, zero_sub,
    ← sub_eq_add_neg]
  rfl

@[simp] theorem toZMod_mul
    (left right : FiniteField modulus) :
    (left * right).toZMod = left.toZMod * right.toZMod := by
  rw [toZMod, toNat_mul, ZMod.natCast_mod, Nat.cast_mul]
  rfl

@[simp] theorem toZMod_neg
    (operand : FiniteField modulus) :
    (-operand).toZMod = -operand.toZMod := by
  rw [toZMod, toNat_neg, ZMod.natCast_mod,
    Nat.cast_sub (le_of_lt operand.toNat_value_lt), ZMod.natCast_self, zero_sub]
  rfl

theorem value_eq_zero_iff
    {operand : FiniteField modulus} :
    operand.value = 0 ↔ operand = 0 := by
  have zeroValue : (0 : FiniteField modulus).value = 0 := by
    apply BitVec.eq_of_toNat_eq
    have unfolded : (0 : FiniteField modulus) = ofValue 0 := rfl
    rw [unfolded, toNat_ofValue]
    simp
  constructor
  · intro isZero
    exact FiniteField.ext (isZero.trans zeroValue.symm)
  · rintro rfl
    exact zeroValue

instance : SMul ℕ (FiniteField modulus) where
  smul count operand := ofZMod (count • operand.toZMod)

instance : SMul ℤ (FiniteField modulus) where
  smul count operand := ofZMod (count • operand.toZMod)

instance : Pow (FiniteField modulus) ℕ where
  pow base exponent := ofZMod (base.toZMod ^ exponent)

instance : NatCast (FiniteField modulus) where
  natCast value := ofZMod value

instance : IntCast (FiniteField modulus) where
  intCast value := ofZMod value

/-- The operations obey the laws of the integers modulo the modulus. -/
instance : CommRing (FiniteField modulus) :=
  toZMod_injective.commRing toZMod toZMod_zero toZMod_one toZMod_add toZMod_mul
    toZMod_neg toZMod_sub (fun _ _ => toZMod_ofZMod _) (fun _ _ => toZMod_ofZMod _)
    (fun _ _ => toZMod_ofZMod _) (fun _ => toZMod_ofZMod _) (fun _ => toZMod_ofZMod _)

end Operations

section Inverse

variable [isPrime : Fact modulus.toNat.Prime]

/-- The loop multiplies its accumulator by a power of its base. -/
theorem toZMod_invLoop
    (base result : FiniteField modulus)
    (exponent : BitVec width) :
    (invLoop base result exponent).toZMod =
      result.toZMod * base.toZMod ^ exponent.toNat := by
  fun_induction invLoop base result exponent with
  | case1 base result exponent positive inductionHypothesis =>
      have parity : (exponent &&& 1).toNat = exponent.toNat % 2 := by
        rw [BitVec.toNat_and, toNat_one modulus, Nat.and_one_is_mod]
      have isOdd : exponent &&& 1 ≠ 0 ↔ exponent.toNat % 2 = 1 := by
        rw [Ne, ← BitVec.toNat_inj, parity]
        simp
      have halves := Nat.div_add_mod exponent.toNat 2
      simp only [dite_eq_ite] at inductionHypothesis
      rw [inductionHypothesis, BitVec.toNat_ushiftRight, Nat.shiftRight_one, toZMod_mul,
        ← pow_two, ← pow_mul]
      split
      · rename_i odd
        rw [isOdd.mp odd] at halves
        rw [toZMod_mul, mul_assoc, ← pow_succ', halves]
      · rename_i even
        have even : exponent.toNat % 2 = 0 :=
          (Nat.mod_two_eq_zero_or_one _).resolve_right (fun odd => even (isOdd.mpr odd))
        rw [even, add_zero] at halves
        rw [halves]
  | case2 base result exponent done =>
      have isZero : exponent.toNat = 0 := by
        simpa [BitVec.lt_def] using done
      rw [isZero, pow_zero, mul_one]

/-- Fermat's little theorem: the loop inverts. -/
theorem toZMod_inv
    (operand : FiniteField modulus) :
    operand⁻¹.toZMod = operand.toZMod⁻¹ := by
  have unfolded :
      operand⁻¹ =
        if operand.value = 0 then
          0
        else
          invLoop operand 1 (modulus - 2) := rfl
  rw [unfolded]
  split
  · rename_i isZero
    have residueZero : operand.toZMod = 0 := by
      rw [toZMod, isZero]
      simp
    rw [toZMod_zero, residueZero, inv_zero]
  · rename_i isNonzero
    have residueNonzero : operand.toZMod ≠ 0 := by
      intro residueZero
      rw [← toZMod_zero] at residueZero
      exact isNonzero (value_eq_zero_iff.mpr (toZMod_injective residueZero))
    have atLeastTwo := isPrime.out.two_le
    have wordTwo : (2 : BitVec width).toNat = 2 :=
      Nat.mod_eq_of_lt (atLeastTwo.trans_lt modulus.isLt)
    have exponent : (modulus - 2).toNat = modulus.toNat - 2 := by
      rw [BitVec.toNat_sub_of_le (BitVec.le_def.mpr (by omega)), wordTwo]
    rw [toZMod_invLoop, toZMod_one, one_mul, exponent]
    refine eq_inv_of_mul_eq_one_left ?_
    rw [← pow_succ, show modulus.toNat - 2 + 1 = modulus.toNat - 1 by omega]
    exact ZMod.pow_card_sub_one_eq_one residueNonzero

instance : Field (FiniteField modulus) :=
  { (inferInstance : CommRing (FiniteField modulus)) with
    inv := Inv.inv
    exists_pair_ne := ⟨0, 1, by
      intro same
      have residues := congrArg toZMod same
      rw [toZMod_zero, toZMod_one] at residues
      exact zero_ne_one residues⟩
    mul_inv_cancel := by
      intro operand isNonzero
      apply toZMod_injective
      rw [toZMod_mul, toZMod_inv, toZMod_one]
      refine mul_inv_cancel₀ ?_
      intro isZero
      rw [← toZMod_zero] at isZero
      exact isNonzero (toZMod_injective isZero)
    inv_zero := by
      apply toZMod_injective
      rw [toZMod_inv, toZMod_zero, inv_zero]
    nnqsmul := _
    nnqsmul_def := fun _ _ => rfl
    qsmul := _
    qsmul_def := fun _ _ => rfl }

end Inverse

end FiniteField

end NumericaCore
