import Mathlib.Algebra.Field.ZMod
import Mathlib.Data.Nat.Sqrt
import Mathlib.Data.Rat.Cast.Lemmas
import Mathlib.Tactic.Linarith
import Mathlib.Tactic.Ring
import Stocas.Library.NewtonRoot
import Stocas.Library.Outcome

namespace NumericaCore

open Outcome (bind_eq_ok ok_bind)

/-!
# Rational reconstruction

A residue modulo `m` is read as a fraction with a small numerator and a small
denominator.  `BigInt` division truncates.  The reconstructed fraction is congruent
to the residue, and its denominator is smaller than the modulus.
-/

/-- `std::domain_error` with its message. -/
structure DomainError where
  message : String
deriving DecidableEq

/-- The Newton iteration of `isqrt`. -/
def isqrtLoop
    (value x y : ℕ) :
    ℕ :=
  if y < x then
    isqrtLoop value y ((y + value / y) / 2)
  else
    x
termination_by x

/-- `isqrt`. -/
def isqrt (value : ℤ) : Except DomainError ℤ :=
  if value < 0 then
    .error ⟨"isqrt: negative argument"⟩
  else if value = 0 then
    .ok 0
  else
    .ok (isqrtLoop value.toNat value.toNat ((value.toNat + 1) / 2))

/-- The Euclidean loop of `reconstruct`: the last remainder and its cofactor. -/
def reconstructLoop
    (actualBound rPrev rCurr tPrev tCurr : ℤ) :
    Option (ℤ × ℤ) :=
  if actualBound < rCurr then
    if rCurr = 0 then
      none
    else
      let quotient := rPrev.tdiv rCurr
      reconstructLoop actualBound rCurr (rPrev - quotient * rCurr)
        tCurr (tPrev - quotient * tCurr)
  else
    some (rCurr, tCurr)
termination_by rCurr.natAbs
decreasing_by
  rename_i isNonzero
  have isRemainder : rPrev - rPrev.tdiv rCurr * rCurr = rPrev.tmod rCurr := by
    have division := Int.tdiv_mul_add_tmod rPrev rCurr
    omega
  rw [isRemainder, Int.natAbs_tmod]
  exact Nat.mod_lt _ (Int.natAbs_pos.mpr isNonzero)

/-- `Rational::reconstruct`. -/
def reconstruct
    (residue modulus : ℤ)
    (bound : Option ℤ) :
    Except DomainError (Option ℚ) :=
  if 0 < modulus then do
    let actualBound ←
      match bound with
      | some given => .ok given
      | none => isqrt (modulus.tdiv 2)
    match
      reconstructLoop actualBound modulus
        ((residue.tmod modulus + modulus).tmod modulus) 0 1 with
    | none => .ok none
    | some (numerator, denominator) =>
        if |denominator| = 0 ∨ actualBound < |denominator| then
          .ok none
        else if Int.gcd |numerator| |denominator| ≠ 1 then
          .ok none
        else
          .ok (some (numerator / denominator))
  else
    .error ⟨"Rational::reconstruct: modulus must be positive"⟩

/-- A Newton step stays at or above the square root. -/
theorem sqrt_le_newton
    {value x : ℕ}
    (positive : 0 < x) :
    Nat.sqrt value ≤ (x + value / x) / 2 := by
  have above :=
    NewtonRoot.step_mem_upperBounds (Int.ofNat_lt.mpr positive)
      (NewtonRoot.isGreatest_sqrt value).1
  rw [NewtonRoot.step] at above
  exact_mod_cast above

/-- From above, the iteration ends at the square root. -/
theorem isqrtLoop_eq_sqrt
    {value x y : ℕ}
    (positive : 0 < value)
    (above : Nat.sqrt value ≤ x)
    (isStep : y = (x + value / x) / 2) :
    isqrtLoop value x y = Nat.sqrt value := by
  have rootPositive : 0 < Nat.sqrt value := Nat.sqrt_pos.mpr positive
  fun_induction isqrtLoop value x y with
  | case1 x y lower inductionHypothesis =>
      refine inductionHypothesis ?_ rfl
      rw [isStep]
      exact sqrt_le_newton (rootPositive.trans_le above)
  | case2 x y done =>
      refine le_antisymm ?_ above
      have quotient : x ≤ value / x := by omega
      exact Nat.le_sqrt.mpr
        ((Nat.le_div_iff_mul_le (rootPositive.trans_le above)).mp quotient)

/-- `isqrt` is the integer square root. -/
theorem isqrt_eq_sqrt (value : ℕ) :
    isqrt value = .ok (Nat.sqrt value) := by
  rw [isqrt, if_neg (by omega)]
  split
  · rename_i isZero
    have isZero : value = 0 := by exact_mod_cast isZero
    rw [isZero]
    rfl
  · rename_i isNonzero
    have positive : 0 < value := by omega
    rw [Int.toNat_natCast, isqrtLoop_eq_sqrt positive (Nat.sqrt_le_self value)]
    rw [Nat.div_self positive]

/-- The default bound for a prime modulus is positive and below the modulus. -/
theorem isqrt_half
    {modulus : ℕ}
    (atLeastTwo : 2 ≤ modulus) :
    ∃ bound : ℤ,
      isqrt ((modulus : ℤ).tdiv 2) = .ok bound ∧ 1 ≤ bound ∧ bound < modulus := by
  have half : (modulus : ℤ).tdiv 2 = ((modulus / 2 : ℕ) : ℤ) := by
    rw [Int.tdiv_eq_ediv_of_nonneg (by omega)]
    simp
  have halfPositive : 0 < modulus / 2 := Nat.div_pos atLeastTwo (by decide)
  have rootPositive : 0 < Nat.sqrt (modulus / 2) := Nat.sqrt_pos.mpr halfPositive
  have atMost := Nat.sqrt_le_self (modulus / 2)
  rw [half, isqrt_eq_sqrt]
  exact ⟨_, rfl, by omega, by omega⟩

/-- The loop keeps every remainder congruent to its cofactor times the residue. -/
theorem reconstructLoop_spec
    {modulus : ℕ}
    {actualBound rPrev rCurr tPrev tCurr : ℤ}
    {residue : ZMod modulus}
    (previous : (rPrev : ZMod modulus) = tPrev * residue)
    (current : (rCurr : ZMod modulus) = tCurr * residue)
    {numerator denominator : ℤ}
    (found :
      reconstructLoop actualBound rPrev rCurr tPrev tCurr =
        some (numerator, denominator)) :
    (numerator : ZMod modulus) = denominator * residue := by
  fun_induction reconstructLoop actualBound rPrev rCurr tPrev tCurr with
  | case1 rPrev tPrev tCurr large =>
      cases found
  | case2 rPrev rCurr tPrev tCurr large isNonzero quotient inductionHypothesis =>
      refine inductionHypothesis current ?_ found
      push_cast
      rw [previous, current]
      ring
  | case3 rPrev rCurr tPrev tCurr small =>
      cases found
      exact current

/-- Truncated remainders are congruent to what they are remainders of. -/
theorem cast_tmod
    {modulus : ℕ}
    (value : ℤ) :
    ((value.tmod modulus : ℤ) : ZMod modulus) = value := by
  have division := congrArg (Int.cast (R := ZMod modulus))
    (Int.tdiv_mul_add_tmod value modulus)
  simpa using division

/-- A nonzero integer smaller than the modulus is not zero modulo it. -/
theorem intCast_ne_zero_of_abs_lt
    {modulus : ℕ}
    {value : ℤ}
    (isNonzero : value ≠ 0)
    (small : |value| < modulus) :
    (value : ZMod modulus) ≠ 0 := by
  intro isZero
  rw [ZMod.intCast_zmod_eq_zero_iff_dvd] at isZero
  exact isNonzero (Int.eq_zero_of_abs_lt_dvd isZero small)

/--
A fraction reconstructed modulo a prime has a denominator that is not zero modulo the
prime, and it is the residue there.
-/
theorem reconstruct_spec
    {modulus : ℕ}
    [prime : Fact modulus.Prime]
    {residue : ℤ}
    {value : ℚ}
    (found : reconstruct residue modulus none = .ok (some value)) :
    (value.den : ZMod modulus) ≠ 0 ∧ (value : ZMod modulus) = residue := by
  have positive : 0 < (modulus : ℤ) := by exact_mod_cast prime.out.pos
  obtain ⟨bound, isBound, _, below⟩ := isqrt_half prime.out.two_le
  rw [reconstruct, if_pos positive] at found
  simp only [isBound, ok_bind] at found
  split at found
  · cases found
  · rename_i numerator denominator looped
    split at found
    · cases found
    · rename_i bounded
      split at found
      · cases found
      · cases found
        have denominatorNonzero : denominator ≠ 0 := by
          intro isZero
          exact bounded (Or.inl (by rw [isZero, abs_zero]))
        have small : |denominator| < modulus :=
          lt_of_le_of_lt (not_lt.mp (fun large => bounded (Or.inr large))) below
        have castNonzero : (denominator : ZMod modulus) ≠ 0 :=
          intCast_ne_zero_of_abs_lt denominatorNonzero small
        have congruent : (numerator : ZMod modulus) = denominator * residue := by
          refine reconstructLoop_spec ?_ ?_ looped
          · simp
          · rw [cast_tmod, Int.cast_add, cast_tmod]
            simp
        have denDivides : (((numerator / denominator : ℚ)).den : ℤ) ∣ denominator := by
          rw [← Rat.divInt_eq_div]
          exact Rat.den_dvd numerator denominator
        have denNonzero : (((numerator / denominator : ℚ)).den : ZMod modulus) ≠ 0 := by
          intro isZero
          obtain ⟨cofactor, product⟩ := denDivides
          refine castNonzero ?_
          rw [product]
          push_cast
          rw [isZero, zero_mul]
        refine ⟨denNonzero, mul_right_cancel₀ castNonzero ?_⟩
        have product : (numerator / denominator : ℚ) * (denominator : ℚ) = numerator :=
          div_mul_cancel₀ _ (Int.cast_ne_zero.mpr denominatorNonzero)
        have oneNonzero : (((denominator : ℚ)).den : ZMod modulus) ≠ 0 := by
          simp
        calc
          ((numerator / denominator : ℚ) : ZMod modulus) * denominator =
              ((numerator / denominator : ℚ) : ZMod modulus) *
                ((denominator : ℚ) : ZMod modulus) := by
            rw [Rat.cast_intCast]
          _ = (((numerator / denominator : ℚ) * (denominator : ℚ) : ℚ) :
                ZMod modulus) :=
            (Rat.cast_mul_of_ne_zero denNonzero oneNonzero).symm
          _ = residue * denominator := by
            rw [product, Rat.cast_intCast, congruent, mul_comm]

/-- One is reconstructed from the residue one. -/
theorem reconstruct_one
    {modulus : ℕ}
    (atLeastTwo : 2 ≤ modulus) :
    reconstruct 1 modulus none = .ok (some 1) := by
  obtain ⟨bound, isBound, positive, _⟩ := isqrt_half atLeastTwo
  have residueOne :
      (((1 : ℤ).tmod modulus + modulus).tmod modulus) = 1 := by
    have large : (1 : ℤ) < modulus := by omega
    rw [Int.tmod_eq_of_lt (by omega) large,
      Int.tmod_eq_emod_of_nonneg (by omega), Int.add_emod_right,
      Int.emod_eq_of_lt (by omega) large]
  have stops : reconstructLoop bound modulus 1 0 1 = some (1, 1) := by
    rw [reconstructLoop, if_neg (by omega)]
  rw [reconstruct, if_pos (by omega)]
  simp only [isBound, ok_bind, residueOne, stops]
  rw [if_neg, if_neg]
  · simp
  · simp
  · simp only [abs_one, not_or]
    omega

end NumericaCore
