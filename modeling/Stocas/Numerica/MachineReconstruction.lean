import Stocas.Numerica.IntegerSquareRoot
import Stocas.Numerica.Reconstruction

namespace NumericaCore

open Outcome (ok_bind)
open WhileLoop (whileLoop whileLoop_fail whileLoop_step whileLoop_stop)

/-!
# Rational reconstruction on `BigInt`

`Rational::reconstruct` runs the Euclidean loop on `BigInt`, whose operators may throw and
whose small values are machine words, and returns from inside the loop when a remainder is
zero.  It ends for every residue, modulus and bound, and its outcome is that of the same
computation on the integers.
-/

/-- `BigInt`'s `operator>`. -/
def BigInt.greater (a b : BigInt) : Bool :=
  a.compare b == .gt

/-- The variables of the loop in `reconstruct`. -/
structure EuclidState where
  rPrev : BigInt
  rCurr : BigInt
  tPrev : BigInt
  tCurr : BigInt

/-- What leaves the loop from inside its body. -/
inductive EarlyExit where
  /-- `return std::nullopt`. -/
  | nullopt
  /-- An exception. -/
  | thrown (fault : Fault)

namespace EuclidState

/-- The variables before the first test. -/
def start (residue modulus : BigInt) : Machine EuclidState := do
  let rCurr ← (← (← residue.rem modulus).add modulus).rem modulus
  .ok
    { rPrev := modulus
      rCurr := rCurr
      tPrev := BigInt.ofInt64 0
      tCurr := BigInt.ofInt64 1 }

/-- `r_curr > actual_bound`. -/
def aboveBound
    (actualBound : BigInt)
    (state : EuclidState) :
    Bool :=
  state.rCurr.greater actualBound

/-- The body of the loop, past its test. -/
def divide
    (hasInt128 : Bool)
    (state : EuclidState) :
    Machine EuclidState := do
  let quotient ← state.rPrev.div state.rCurr
  let rNext ← state.rPrev.sub (← quotient.mul hasInt128 state.rCurr)
  let tNext ← state.tPrev.sub (← quotient.mul hasInt128 state.tCurr)
  .ok
    { rPrev := state.rCurr
      rCurr := rNext
      tPrev := state.tCurr
      tCurr := tNext }

/-- The body of the loop. -/
def next
    (hasInt128 : Bool)
    (state : EuclidState) :
    Except EarlyExit EuclidState :=
  if state.rCurr.equals (BigInt.ofInt64 0) then
    .error .nullopt
  else
    (state.divide hasInt128).mapError .thrown

/-- What follows the loop. -/
def fraction
    (actualBound : BigInt)
    (state : EuclidState) :
    Machine (Option Rational) := do
  let absDenominator ← absValue state.tCurr
  if absDenominator.equals (BigInt.ofInt64 0) || absDenominator.greater actualBound then
    .ok none
  else do
    let absNumerator ← absValue state.rCurr
    if !(BigInt.gcd absNumerator absDenominator).equals (BigInt.ofInt64 1) then
      .ok none
    else do
      .ok (some (← Rational.ofFraction state.rCurr state.tCurr))

end EuclidState

/-- How the function goes on after the loop was left. -/
def afterLoop
    (actualBound : BigInt) :
    Except EarlyExit EuclidState → Machine (Option Rational)
  | .error .nullopt => .ok none
  | .error (.thrown fault) => .error fault
  | .ok state => state.fraction actualBound

/-- `Rational::reconstruct`, if no loop of it needs more than the given number of tests. -/
def Rational.reconstruct
    (hasInt128 : Bool)
    (residue modulus : BigInt)
    (bound : Option BigInt)
    (tests : ℕ) :
    Option (Machine (Option Rational)) :=
  if modulus.greater (BigInt.ofInt64 0) then
    match actualBound modulus bound tests with
    | none => none
    | some (.error fault) => some (.error fault)
    | some (.ok actualBound) =>
        match EuclidState.start residue modulus with
        | .error fault => some (.error fault)
        | .ok state =>
            (whileLoop (EuclidState.aboveBound actualBound) (EuclidState.next hasInt128)
              tests state).map (afterLoop actualBound)
  else
    some (.error (.domainError "Rational::reconstruct: modulus must be positive".toList))

theorem BigInt.greater_iff (a b : BigInt) :
    a.greater b = true ↔ b.value < a.value := by
  rw [greater, beq_iff_eq, compare_eq, compare_gt_iff_gt]

namespace EuclidState

/-- The variables have these integers as their values. -/
structure Holds
    (state : EuclidState)
    (rPrev rCurr tPrev tCurr : ℤ) : Prop where
  rPrev : state.rPrev.value = rPrev
  rCurr : state.rCurr.value = rCurr
  tPrev : state.tPrev.value = tPrev
  tCurr : state.tCurr.value = tCurr

/-- The loop starts with the canonical residue of a positive modulus. -/
theorem start_spec
    {modulus : BigInt}
    (positive : 0 < modulus.value)
    (residue : BigInt) :
    ∃ state,
      start residue modulus = .ok state ∧
        state.Holds modulus.value
          ((residue.value.tmod modulus.value + modulus.value).tmod modulus.value) 0 1 := by
  have started :
      start residue modulus =
        .ok
          { rPrev := modulus
            rCurr :=
              BigInt.demote
                ((residue.value.tmod modulus.value + modulus.value).tmod modulus.value)
            tPrev := BigInt.ofInt64 0
            tCurr := BigInt.ofInt64 1 } := by
    simp only [start, BigInt.rem_eq positive.ne', BigInt.add_eq, BigInt.value_demote, ok_bind]
  exact ⟨_, started, rfl, BigInt.value_demote _, BigInt.value_ofInt64_zero,
    BigInt.value_ofInt64_one⟩

/-- One step of the Euclidean algorithm. -/
def divided (state : EuclidState) : EuclidState where
  rPrev := state.rCurr
  rCurr :=
    BigInt.demote
      (state.rPrev.value - state.rPrev.value.tdiv state.rCurr.value * state.rCurr.value)
  tPrev := state.tCurr
  tCurr :=
    BigInt.demote
      (state.tPrev.value - state.rPrev.value.tdiv state.rCurr.value * state.tCurr.value)

theorem holds_divided (state : EuclidState) :
    state.divided.Holds state.rCurr.value
      (state.rPrev.value - state.rPrev.value.tdiv state.rCurr.value * state.rCurr.value)
      state.tCurr.value
      (state.tPrev.value -
        state.rPrev.value.tdiv state.rCurr.value * state.tCurr.value) where
  rPrev := rfl
  rCurr := BigInt.value_demote _
  tPrev := rfl
  tCurr := BigInt.value_demote _

/-- Past its test the body makes the step. -/
theorem divide_eq
    (hasInt128 : Bool)
    {state : EuclidState}
    (nonzero : state.rCurr.value ≠ 0) :
    state.divide hasInt128 = .ok state.divided := by
  simp only [divide, BigInt.div_eq nonzero, BigInt.mul_eq, BigInt.sub_eq, BigInt.value_demote,
    ok_bind]
  rfl

/-- The step lowers the remainder. -/
theorem divided_lower
    {state : EuclidState}
    (nonzero : state.rCurr.value ≠ 0) :
    (state.rPrev.value -
        state.rPrev.value.tdiv state.rCurr.value * state.rCurr.value).natAbs <
      state.rCurr.value.natAbs := by
  have division := Int.tdiv_mul_add_tmod state.rPrev.value state.rCurr.value
  have isRemainder :
      state.rPrev.value - state.rPrev.value.tdiv state.rCurr.value * state.rCurr.value =
        state.rPrev.value.tmod state.rCurr.value := by
    omega
  rw [isRemainder, Int.natAbs_tmod]
  exact Nat.mod_lt _ (Int.natAbs_pos.mpr nonzero)

/-- The outcome of the loop is that of the loop on the integers. -/
inductive Realizes : Except EarlyExit EuclidState → Option (ℤ × ℤ) → Prop
  | nullopt : Realizes (.error .nullopt) none
  | left (state : EuclidState) :
      Realizes (.ok state) (some (state.rCurr.value, state.tCurr.value))

/-- The loop ends as the one on the integers, with one test more than its remainder. -/
theorem loop_realizes
    (hasInt128 : Bool)
    (actualBound : BigInt)
    {rPrev rCurr tPrev tCurr : ℤ}
    {state : EuclidState}
    (holds : state.Holds rPrev rCurr tPrev tCurr) :
    ∃ outcome,
      (∀ tests,
        rCurr.natAbs < tests →
        whileLoop (aboveBound actualBound) (next hasInt128) tests state = some outcome) ∧
      Realizes outcome (reconstructLoop actualBound.value rPrev rCurr tPrev tCurr) := by
  fun_induction reconstructLoop actualBound.value rPrev rCurr tPrev tCurr
    generalizing state with
  | case1 rPrev tPrev tCurr large =>
      have entered : state.aboveBound actualBound = true :=
        (BigInt.greater_iff _ _).mpr (holds.rCurr ▸ large)
      have returned : state.next hasInt128 = .error .nullopt :=
        if_pos ((BigInt.equals_zero_iff _).mpr holds.rCurr)
      refine ⟨.error .nullopt, ?_, .nullopt⟩
      intro tests enough
      obtain ⟨tests, rfl⟩ := Nat.exists_eq_add_one_of_ne_zero (Nat.ne_zero_of_lt enough)
      exact whileLoop_fail entered returned tests
  | case2 rPrev rCurr tPrev tCurr large nonzero quotient =>
      rename_i inductionHypothesis
      obtain ⟨rfl, rfl, rfl, rfl⟩ := holds
      have entered : state.aboveBound actualBound = true :=
        (BigInt.greater_iff _ _).mpr large
      have passes : ¬state.rCurr.equals (BigInt.ofInt64 0) = true :=
        fun isZero => nonzero ((BigInt.equals_zero_iff _).mp isZero)
      have performed : state.next hasInt128 = .ok state.divided := by
        rw [next, if_neg passes, divide_eq hasInt128 nonzero]
        rfl
      obtain ⟨outcome, returned, realizes⟩ :=
        inductionHypothesis (holds_divided state)
      refine ⟨outcome, ?_, realizes⟩
      intro tests enough
      obtain ⟨tests, rfl⟩ := Nat.exists_eq_add_one_of_ne_zero (Nat.ne_zero_of_lt enough)
      rw [whileLoop_step entered performed]
      exact returned tests ((divided_lower nonzero).trans_le (Nat.le_of_lt_succ enough))
  | case3 rPrev rCurr tPrev tCurr small =>
      obtain ⟨rfl, rfl, rfl, rfl⟩ := holds
      have left : state.aboveBound actualBound = false := by
        rw [← Bool.not_eq_true, aboveBound, BigInt.greater_iff]
        exact small
      refine ⟨.ok state, ?_, .left state⟩
      intro tests enough
      obtain ⟨tests, rfl⟩ := Nat.exists_eq_add_one_of_ne_zero (Nat.ne_zero_of_lt enough)
      exact whileLoop_stop left tests

/-- The three tests and the constructor after the loop. -/
theorem fraction_eq
    (actualBound : BigInt)
    (state : EuclidState) :
    state.fraction actualBound =
      if |state.tCurr.value| = 0 ∨ actualBound.value < |state.tCurr.value| then
        .ok none
      else if Int.gcd |state.rCurr.value| |state.tCurr.value| ≠ 1 then
        .ok none
      else
        .ok (some (Rational.ofRat (state.rCurr.value / state.tCurr.value))) := by
  have outside :
      ((BigInt.demote |state.tCurr.value|).equals (BigInt.ofInt64 0) ||
        (BigInt.demote |state.tCurr.value|).greater actualBound) = true ↔
        |state.tCurr.value| = 0 ∨ actualBound.value < |state.tCurr.value| := by
    rw [Bool.or_eq_true, BigInt.equals_zero_iff, BigInt.greater_iff, BigInt.value_demote]
  have notLowest :
      (!(BigInt.gcd (BigInt.demote |state.rCurr.value|)
        (BigInt.demote |state.tCurr.value|)).equals (BigInt.ofInt64 1)) = true ↔
        Int.gcd |state.rCurr.value| |state.tCurr.value| ≠ 1 := by
    rw [Bool.not_eq_true', ← Bool.not_eq_true, BigInt.equals_iff, BigInt.value_ofInt64_one,
      BigInt.gcd, BigInt.value_demote, BigInt.value_demote, BigInt.value_demote,
      Nat.cast_eq_one]
  simp only [fraction, absValue_eq, ok_bind, outside, notLowest]
  split
  · rfl
  · rename_i inside
    have nonzero : state.tCurr.value ≠ 0 :=
      fun isZero => inside (Or.inl (abs_eq_zero.mpr isZero))
    rw [Rational.ofFraction_eq nonzero, ok_bind]

end EuclidState

/-- `actual_bound` on the integers. -/
def integerBound
    (modulus : ℤ)
    (given : Option ℤ) :
    Except DomainError ℤ :=
  match given with
  | some bound => .ok bound
  | none => isqrt (modulus.tdiv 2)

/-- Both bounds are found, and neither needs more tests than the modulus has units. -/
theorem actualBound_realizes
    {modulus : BigInt}
    (positive : 0 < modulus.value)
    (bound : Option BigInt) :
    ∃ found : BigInt,
      (∀ tests,
        modulus.value.toNat < tests →
        actualBound modulus bound tests = some (.ok found)) ∧
      integerBound modulus.value (bound.map BigInt.value) = .ok found.value := by
  cases bound with
  | some given =>
      exact ⟨given, fun _ _ => rfl, rfl⟩
  | none =>
      obtain ⟨found, returned, -⟩ := actualBound_default positive
      have refined := actualBound_refines (returned _ (Nat.lt_succ_self _))
      refine ⟨found, returned, ?_⟩
      change isqrt (modulus.value.tdiv 2) = .ok found.value
      cases root : isqrt (modulus.value.tdiv 2) with
      | error error =>
          rw [root] at refined
          cases refined
      | ok value =>
          rw [root] at refined
          cases refined
          rfl

/-- What follows the loop on the integers. -/
def integerFraction (actualBound : ℤ) : Option (ℤ × ℤ) → Except DomainError (Option ℚ)
  | none => .ok none
  | some (numerator, denominator) =>
      if |denominator| = 0 ∨ actualBound < |denominator| then
        .ok none
      else if Int.gcd |numerator| |denominator| ≠ 1 then
        .ok none
      else
        .ok (some (numerator / denominator))

/-- With a positive modulus the computation is its loop and what follows it. -/
theorem reconstruct_eq_integerFraction
    {modulus actualBound : ℤ}
    {given : Option ℤ}
    (positive : 0 < modulus)
    (isBound : integerBound modulus given = .ok actualBound)
    (residue : ℤ) :
    reconstruct residue modulus given =
      integerFraction actualBound
        (reconstructLoop actualBound modulus
          ((residue.tmod modulus + modulus).tmod modulus) 0 1) := by
  have unfolded :
      reconstruct residue modulus given =
        (do
          let found ← integerBound modulus given
          integerFraction found
            (reconstructLoop found modulus
              ((residue.tmod modulus + modulus).tmod modulus) 0 1)) := by
    rw [reconstruct, if_pos positive]
    cases given <;> rfl
  rw [unfolded, isBound, ok_bind]

/-- What follows a loop on the integers is what follows the loop. -/
theorem afterLoop_realizes
    {residue modulus : ℤ}
    {given : Option ℤ}
    {actualBound : BigInt}
    (positive : 0 < modulus)
    (isBound : integerBound modulus given = .ok actualBound.value)
    {outcome : Except EarlyExit EuclidState}
    (realizes :
      EuclidState.Realizes outcome
        (reconstructLoop actualBound.value modulus
          ((residue.tmod modulus + modulus).tmod modulus) 0 1)) :
    afterLoop actualBound outcome =
      ((reconstruct residue modulus given).map (Option.map Rational.ofRat)).mapError
        (fun error => .domainError error.message.toList) := by
  rw [reconstruct_eq_integerFraction positive isBound]
  generalize reconstructLoop actualBound.value modulus
    ((residue.tmod modulus + modulus).tmod modulus) 0 1 = looped at realizes
  cases realizes with
  | nullopt =>
      rfl
  | left state =>
      simp only [afterLoop, EuclidState.fraction_eq, integerFraction]
      split
      · rfl
      · split <;> rfl

/--
For every residue, modulus and bound, `Rational::reconstruct` ends.  Its outcome is that of
the computation on the integers, with the fraction in lowest terms.
-/
theorem Rational.reconstruct_refines
    (hasInt128 : Bool)
    (residue modulus : BigInt)
    (bound : Option BigInt) :
    ∃ outcome : Machine (Option Rational),
      (∀ tests,
        modulus.value.toNat < tests →
        Rational.reconstruct hasInt128 residue modulus bound tests = some outcome) ∧
      outcome =
        ((NumericaCore.reconstruct residue.value modulus.value
          (bound.map BigInt.value)).map (Option.map ofRat)).mapError
          (fun error => .domainError error.message.toList) := by
  have guard := BigInt.greater_iff modulus (BigInt.ofInt64 0)
  rw [BigInt.value_ofInt64_zero] at guard
  by_cases positive : 0 < modulus.value
  · obtain ⟨found, returned, isBound⟩ := actualBound_realizes positive bound
    obtain ⟨notNegative, lower, -⟩ := canonicalResidue_range positive residue.value
    obtain ⟨state, started, holds⟩ := EuclidState.start_spec positive residue
    obtain ⟨outcome, looped, realizes⟩ := EuclidState.loop_realizes hasInt128 found holds
    refine ⟨afterLoop found outcome, ?_, afterLoop_realizes positive isBound realizes⟩
    intro tests enough
    have enoughForLoop :
        ((residue.value.tmod modulus.value + modulus.value).tmod modulus.value).natAbs <
          tests := by
      omega
    simp only [reconstruct, if_pos (guard.mpr positive), returned tests enough,
      started, looped tests enoughForLoop, Option.map_some]
  · refine ⟨_, fun tests _ => if_neg fun passes => positive (guard.mp passes), ?_⟩
    rw [NumericaCore.reconstruct, if_neg positive]
    rfl

end NumericaCore
