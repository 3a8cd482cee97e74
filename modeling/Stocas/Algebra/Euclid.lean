import Stocas.Algebra.Rings
import Stocas.Library.GreatestCommonDivisor

namespace AlgebraCore

open GreatestCommonDivisor (IsGcd)
open NumericaCore (BigInt FiniteField Machine)
open Outcome (ok_bind)

/-!
# The Euclidean algorithm over any Euclidean domain

`gcd` and `extended_gcd` are written once for every ring struct.  Where division reduces a
size, both loops end with a greatest common divisor, and the extended one with its Bezout
coefficients; truncating division of integers and division in a field are two such cases.
-/

/-- `ExtendedGcdResult`. -/
structure ExtendedGcdResult (Element : Type) where
  gcd : Element
  x : Element
  y : Element

section Templates

variable {Element : Type} (ring : EuclideanDomain Element)

/-- The loop of `gcd`, with fuel for its iterations; `none` when that is used up. -/
def gcd : ℕ → Element → Element → Option (Machine Element)
  | 0, _, _ => none
  | fuel + 1, a, b =>
      if ring.equals b ring.zero then
        some (.ok a)
      else
        match ring.divRem a b with
        | .error fault => some (.error fault)
        | .ok (_, remainder) => gcd fuel b remainder

/-- The variables of the loop of `extended_gcd`. -/
structure ExtendedState (Element : Type) where
  oldR : Element
  r : Element
  oldS : Element
  s : Element
  oldT : Element
  t : Element

/-- The body of the loop of `extended_gcd`, where `r` is not zero. -/
def extendedStep (state : ExtendedState Element) : Machine (ExtendedState Element) := do
  let (quotient, remainder) ← ring.divRem state.oldR state.r
  let nextS ← ring.sub state.oldS (← ring.mul quotient state.s)
  let nextT ← ring.sub state.oldT (← ring.mul quotient state.t)
  .ok ⟨state.r, remainder, state.s, nextS, state.t, nextT⟩

/-- The loop of `extended_gcd`, with fuel for its iterations. -/
def extendedLoop :
    ℕ → ExtendedState Element → Option (Machine (ExtendedGcdResult Element))
  | 0, _ => none
  | fuel + 1, state =>
      if ring.equals state.r ring.zero then
        some (.ok ⟨state.oldR, state.oldS, state.oldT⟩)
      else
        match extendedStep ring state with
        | .error fault => some (.error fault)
        | .ok next => extendedLoop fuel next

/-- `extended_gcd`. -/
def extendedGcd (fuel : ℕ) (a b : Element) :
    Option (Machine (ExtendedGcdResult Element)) :=
  extendedLoop ring fuel ⟨a, b, ring.one, ring.zero, ring.zero, ring.one⟩

end Templates

/-- The operations of a ring struct are those of a ring, and division reduces a size. -/
structure Represents
    {Element R : Type}
    [CommRing R]
    (ring : EuclideanDomain Element)
    (value : Element → R)
    (size : Element → ℕ) : Prop where
  zero : value ring.zero = 0
  one : value ring.one = 1
  equals_zero : ∀ a, ring.equals a ring.zero = true ↔ value a = 0
  sub : ∀ a b, ∃ difference,
    ring.sub a b = .ok difference ∧ value difference = value a - value b
  mul : ∀ a b, ∃ product, ring.mul a b = .ok product ∧ value product = value a * value b
  divRem :
    ∀ a b,
      value b ≠ 0 →
      ∃ quotient remainder,
        ring.divRem a b = .ok (quotient, remainder) ∧
          value a = value quotient * value b + value remainder ∧
          size remainder < size b

section Correctness

variable {Element R : Type} [CommRing R]
variable {ring : EuclideanDomain Element} {value : Element → R} {size : Element → ℕ}

/-- The coefficients of a state express its remainders. -/
structure ExtendedState.Bezout
    (value : Element → R)
    (a b : Element)
    (state : ExtendedState Element) : Prop where
  old : value state.oldS * value a + value state.oldT * value b = value state.oldR
  new : value state.s * value a + value state.t * value b = value state.r

/-- One iteration divides, and keeps the coefficients right. -/
theorem extendedStep_spec
    (represents : Represents ring value size)
    {a b : Element}
    {state : ExtendedState Element}
    (bezout : state.Bezout value a b)
    (nonzero : value state.r ≠ 0) :
    ∃ quotient remainder next,
      ring.divRem state.oldR state.r = .ok (quotient, remainder) ∧
        value state.oldR = value quotient * value state.r + value remainder ∧
        size remainder < size state.r ∧
        extendedStep ring state = .ok next ∧
        next.oldR = state.r ∧
        next.r = remainder ∧
        next.Bezout value a b := by
  obtain ⟨quotient, remainder, divided, identity, smaller⟩ :=
    represents.divRem state.oldR state.r nonzero
  obtain ⟨productS, productS_eq, productS_value⟩ := represents.mul quotient state.s
  obtain ⟨nextS, nextS_eq, nextS_value⟩ := represents.sub state.oldS productS
  obtain ⟨productT, productT_eq, productT_value⟩ := represents.mul quotient state.t
  obtain ⟨nextT, nextT_eq, nextT_value⟩ := represents.sub state.oldT productT
  refine ⟨quotient, remainder, ⟨state.r, remainder, state.s, nextS, state.t, nextT⟩,
    divided, identity, smaller, ?_, rfl, rfl, bezout.new, ?_⟩
  · simp only [extendedStep, divided, productS_eq, nextS_eq, productT_eq, nextT_eq, ok_bind]
  · have remainder_eq :
        value remainder = value state.oldR - value quotient * value state.r := by
      rw [identity]
      ring
    simp only [nextS_value, nextT_value, productS_value, productT_value, remainder_eq,
      ← bezout.old, ← bezout.new]
    ring

/-- What both algorithms return for two elements. -/
structure EuclidResult
    (ring : EuclideanDomain Element)
    (value : Element → R)
    (a b : Element)
    (fuel : ℕ)
    (result : ExtendedGcdResult Element) : Prop where
  gcd_returns : gcd ring fuel a b = some (.ok result.gcd)
  extended_returns : extendedGcd ring fuel a b = some (.ok result)
  isGcd : IsGcd (value a) (value b) (value result.gcd)
  bezout : value result.x * value a + value result.y * value b = value result.gcd

/-- Both loops end when the size of the remainder is used up, and agree. -/
theorem loops_spec
    (represents : Represents ring value size)
    {a b : Element}
    {fuel : ℕ}
    {state : ExtendedState Element}
    (bezout : state.Bezout value a b)
    (enough : size state.r < fuel) :
    ∃ result : ExtendedGcdResult Element,
      gcd ring fuel state.oldR state.r = some (.ok result.gcd) ∧
        extendedLoop ring fuel state = some (.ok result) ∧
        IsGcd (value state.oldR) (value state.r) (value result.gcd) ∧
        value result.x * value a + value result.y * value b = value result.gcd := by
  induction fuel generalizing state with
  | zero =>
      exact absurd enough (Nat.not_lt_zero _)
  | succ fuel inductionHypothesis =>
      rw [gcd, extendedLoop]
      by_cases done : ring.equals state.r ring.zero = true
      · have remainder_zero := (represents.equals_zero state.r).mp done
        refine ⟨⟨state.oldR, state.oldS, state.oldT⟩, if_pos done, if_pos done, ?_,
          bezout.old⟩
        rw [remainder_zero]
        exact .zero_right _
      · have nonzero : value state.r ≠ 0 :=
          fun isZero => done ((represents.equals_zero state.r).mpr isZero)
        obtain ⟨quotient, remainder, next, divided, identity, smaller, stepped, oldR_eq, r_eq,
          nextBezout⟩ := extendedStep_spec represents bezout nonzero
        have nextEnough : size next.r < fuel := by
          rw [r_eq]
          exact smaller.trans_le (Nat.le_of_lt_succ enough)
        obtain ⟨result, gcd_eq, extended_eq, isGcd, coefficients⟩ :=
          inductionHypothesis nextBezout nextEnough
        rw [oldR_eq, r_eq] at gcd_eq isGcd
        refine ⟨result, ?_, ?_, isGcd.of_remainder identity, coefficients⟩
        · simp only [done, divided, gcd_eq, Bool.false_eq_true, if_false]
        · simp only [done, stepped, extended_eq, Bool.false_eq_true, if_false]

/-- The algorithms end for every pair of elements, with a gcd and its coefficients. -/
theorem euclid_terminates
    (represents : Represents ring value size)
    (a b : Element) :
    ∃ bound, ∀ fuel ≥ bound, ∃ result, EuclidResult ring value a b fuel result := by
  refine ⟨size b + 1, fun fuel enough => ?_⟩
  have start :
      (⟨a, b, ring.one, ring.zero, ring.zero, ring.one⟩ : ExtendedState Element).Bezout
        value a b := by
    constructor
    · simp only [represents.one, represents.zero, one_mul, zero_mul, add_zero]
    · simp only [represents.one, represents.zero, one_mul, zero_mul, zero_add]
  obtain ⟨result, gcd_eq, extended_eq, isGcd, coefficients⟩ :=
    loops_spec represents start (Nat.lt_of_succ_le enough)
  exact ⟨result, gcd_eq, extended_eq, isGcd, coefficients⟩

end Correctness

/-- Truncating division of integers reduces the absolute value. -/
theorem represents_integerRing (hasInt128 : Bool) :
    Represents (integerRing hasInt128) BigInt.value fun number => number.value.natAbs where
  zero := rfl
  one := rfl
  equals_zero := BigInt.equals_zero_iff
  sub a b := ⟨_, BigInt.sub_eq a b, BigInt.value_demote _⟩
  mul a b := ⟨_, BigInt.mul_eq hasInt128 a b, BigInt.value_demote _⟩
  divRem a b nonzero := by
    refine ⟨BigInt.demote (a.value.tdiv b.value), BigInt.demote (a.value.tmod b.value),
      ?_, ?_, ?_⟩
    · simp only [integerRing, BigInt.div_eq nonzero, BigInt.rem_eq nonzero, ok_bind]
    · rw [BigInt.value_demote, BigInt.value_demote]
      exact (Int.tdiv_mul_add_tmod a.value b.value).symm
    · rw [BigInt.value_demote, Int.natAbs_tmod]
      exact Nat.mod_lt _ (Int.natAbs_pos.mpr nonzero)

/-- In a prime field the remainder is zero. -/
theorem represents_finiteFieldRing
    {width : ℕ}
    (modulus : BitVec width)
    [large : Fact (1 < modulus.toNat)]
    (isPrime : modulus.toNat.Prime) :
    Represents (finiteFieldRing modulus) id fun element => if element = 0 then 0 else 1 where
  zero := rfl
  one := rfl
  equals_zero a := beq_iff_eq
  sub a b := ⟨a - b, rfl, rfl⟩
  mul a b := ⟨a * b, rfl, rfl⟩
  divRem a b nonzero := by
    have wordNonzero : b.value ≠ 0 :=
      fun isZero => nonzero (FiniteField.value_eq_zero_iff.mp isZero)
    obtain ⟨inverted, inverse_eq, inverts⟩ := FiniteField.mul_inverse isPrime wordNonzero
    refine ⟨a * inverted, 0, ?_, ?_, ?_⟩
    · simp only [finiteFieldRing, finiteFieldInv, inverse_eq, ok_bind]
      rfl
    · simp only [id_eq, add_zero]
      rw [mul_assoc, mul_comm inverted, inverts, mul_one]
    · have isNonzero : b ≠ 0 := nonzero
      rw [if_pos rfl, if_neg isNonzero]
      exact Nat.zero_lt_one

/--
Over the integers, and over every prime field, `gcd` and `extended_gcd` end, agree, and
return a greatest common divisor with its Bezout coefficients.
-/
theorem euclid_over_integers_and_prime_fields :
    (∀ (hasInt128 : Bool) (a b : BigInt),
      ∃ bound, ∀ fuel ≥ bound,
        ∃ result, EuclidResult (integerRing hasInt128) BigInt.value a b fuel result) ∧
    (∀ (width : ℕ) (modulus : BitVec width) [Fact (1 < modulus.toNat)],
      modulus.toNat.Prime →
      ∀ a b : FiniteField modulus,
        ∃ bound, ∀ fuel ≥ bound,
          ∃ result, EuclidResult (finiteFieldRing modulus) id a b fuel result) :=
  ⟨fun hasInt128 => euclid_terminates (represents_integerRing hasInt128),
    fun _ modulus _ isPrime => euclid_terminates (represents_finiteFieldRing modulus isPrime)⟩

/-- `-6` and `4`, and 3 and 5 modulo 7. -/
theorem euclid_over_integers_and_prime_fields_seven :
    haveI : Fact (1 < (7 : BitVec 32).toNat) := ⟨by decide⟩
    (∃ bound, ∀ fuel ≥ bound,
      ∃ result,
        EuclidResult (integerRing true) BigInt.value (BigInt.ofInt64 (-6)) (BigInt.ofInt64 4)
          fuel result) ∧
    (∃ bound, ∀ fuel ≥ bound,
      ∃ result,
        EuclidResult (finiteFieldRing (7 : BitVec 32)) id (FiniteField.ofValue 3)
          (FiniteField.ofValue 5) fuel result) := by
  have large : Fact (1 < (7 : BitVec 32).toNat) := ⟨by decide⟩
  have isPrime : (7 : BitVec 32).toNat.Prime := Nat.prime_seven
  obtain ⟨integers, primeFields⟩ := euclid_over_integers_and_prime_fields
  exact ⟨integers true _ _, primeFields 32 7 isPrime _ _⟩

end AlgebraCore
