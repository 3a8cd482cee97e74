import Stocas.Library.NewtonRoot
import Stocas.Library.WhileLoop
import Stocas.Numerica.Rational
import Stocas.Numerica.RationalNumber

namespace NumericaCore

open NewtonRoot (roots step)
open Outcome (ok_bind)
open WhileLoop (Descends Reaches whileLoop)

/-!
# The integer square root

`isqrt` is Newton's method on `BigInt`, started at the value itself and stopped at the first
estimate that is not below the one before.  It ends for every value that is not negative,
divides by no zero, and returns the greatest integer whose square is at most the value.
The default bound of `Rational::reconstruct` is the square root of half the modulus.
-/

/-- The variables of the loop in `isqrt`. -/
structure NewtonState where
  x : BigInt
  y : BigInt

namespace NewtonState

/-- The variables before the first test. -/
def start (value : BigInt) : Machine NewtonState := do
  let x := value
  let y ← (← x.add (BigInt.ofInt64 1)).div (BigInt.ofInt64 2)
  .ok ⟨x, y⟩

/-- `y < x`. -/
def descends (state : NewtonState) : Bool :=
  state.y.less state.x

/-- The body of the loop. -/
def next
    (value : BigInt)
    (state : NewtonState) :
    Machine NewtonState := do
  let x := state.y
  let y ← (← x.add (← value.div x)).div (BigInt.ofInt64 2)
  .ok ⟨x, y⟩

end NewtonState

namespace BigInt

/-- `isqrt`, if its loop needs at most the given number of tests. -/
def isqrt
    (value : BigInt)
    (tests : ℕ) :
    Option (Machine BigInt) :=
  if value.less (ofInt64 0) then
    some (.error (.domainError "isqrt: negative argument".toList))
  else if value.equals (ofInt64 0) then
    some (.ok (ofInt64 0))
  else
    match NewtonState.start value with
    | .error fault => some (.error fault)
    | .ok state =>
        (whileLoop NewtonState.descends (NewtonState.next value) tests state).map
          (Except.map NewtonState.x)

/-- The numbers by which `isqrt` divides, once it is past its two guards. -/
inductive DividesBy (value : BigInt) : BigInt → Prop
  | two
      (notNegative : value.less (ofInt64 0) = false)
      (notZero : value.equals (ofInt64 0) = false) :
      DividesBy value (ofInt64 2)
  | estimate
      {first state : NewtonState}
      (notNegative : value.less (ofInt64 0) = false)
      (notZero : value.equals (ofInt64 0) = false)
      (started : NewtonState.start value = .ok first)
      (reached :
        Reaches NewtonState.descends (NewtonState.next value) first state)
      (entered : state.descends = true) :
      DividesBy value state.y

end BigInt

/-- `actual_bound` in `reconstruct`. -/
def actualBound
    (modulus : BigInt)
    (bound : Option BigInt)
    (tests : ℕ) :
    Option (Machine BigInt) :=
  match bound with
  | some given => some (.ok given)
  | none =>
      match modulus.div (BigInt.ofInt64 2) with
      | .error fault => some (.error fault)
      | .ok half => half.isqrt tests

theorem BigInt.value_ofInt64_two : (BigInt.ofInt64 2).value = 2 :=
  rfl

/-- Halving a number that is not negative rounds down. -/
theorem BigInt.div_two
    {number : BigInt}
    (notNegative : 0 ≤ number.value) :
    number.div (BigInt.ofInt64 2) = .ok (BigInt.demote (number.value / 2)) := by
  have nonzero : (BigInt.ofInt64 2).value ≠ 0 := two_ne_zero
  rw [BigInt.div_eq nonzero, BigInt.value_ofInt64_two, Int.tdiv_eq_ediv_of_nonneg notNegative]

namespace NewtonState

/-- The first two estimates are the value and a Newton step from it. -/
theorem start_eq
    {value : BigInt}
    (positive : 0 < value.value) :
    start value = .ok ⟨value, BigInt.demote (step value.value value.value)⟩ := by
  have sumNotNegative : 0 ≤ (BigInt.demote (value.value + 1)).value := by
    rw [BigInt.value_demote]
    exact Int.le_add_one positive.le
  simp only [start, BigInt.add_eq, BigInt.value_ofInt64_one, ok_bind,
    BigInt.div_two sumNotNegative]
  rw [BigInt.value_demote, NewtonRoot.step_self positive]

/-- The body makes a Newton step from a positive estimate. -/
theorem next_eq
    {value : BigInt}
    {state : NewtonState}
    (notNegative : 0 ≤ value.value)
    (positive : 0 < state.y.value) :
    next value state =
      .ok ⟨state.y, BigInt.demote (step value.value state.y.value)⟩ := by
  have quotient :
      value.div state.y = .ok (BigInt.demote (value.value / state.y.value)) := by
    rw [BigInt.div_eq positive.ne', Int.tdiv_eq_ediv_of_nonneg notNegative]
  have sumNotNegative :
      0 ≤ (BigInt.demote (state.y.value + value.value / state.y.value)).value := by
    rw [BigInt.value_demote]
    exact add_nonneg positive.le (Int.ediv_nonneg notNegative positive.le)
  simp only [next, quotient, ok_bind, BigInt.add_eq, BigInt.value_demote,
    BigInt.div_two sumNotNegative]
  rfl

/-- `x` is not below the root, and `y` is the Newton step from it. -/
structure Bounded
    (value : BigInt)
    (state : NewtonState) : Prop where
  above : state.x.value ∈ upperBounds (roots value.value)
  isStep : state.y.value = step value.value state.x.value

namespace Bounded

variable {value : BigInt} {state : NewtonState}

theorem x_pos
    (bounded : Bounded value state)
    (positive : 0 < value.value) :
    0 < state.x.value :=
  NewtonRoot.pos_of_mem_upperBounds positive bounded.above

/-- The step from an estimate above the root is above the root. -/
theorem y_above
    (bounded : Bounded value state)
    (positive : 0 < value.value) :
    state.y.value ∈ upperBounds (roots value.value) := by
  rw [bounded.isStep]
  exact NewtonRoot.step_mem_upperBounds (bounded.x_pos positive)

/-- The number by which the body divides. -/
theorem y_pos
    (bounded : Bounded value state)
    (positive : 0 < value.value) :
    0 < state.y.value :=
  NewtonRoot.pos_of_mem_upperBounds positive (bounded.y_above positive)

/-- Where the loop stops, the estimate is the root. -/
theorem isGreatest
    (bounded : Bounded value state)
    (positive : 0 < value.value)
    (stopped : state.descends = false) :
    IsGreatest (roots value.value) state.x.value := by
  have notLower : ¬state.y.value < state.x.value := by
    intro lower
    rw [descends, (BigInt.less_iff _ _).mpr lower] at stopped
    cases stopped
  rw [bounded.isStep] at notLower
  exact NewtonRoot.isGreatest_of_le_step (bounded.x_pos positive) bounded.above
    (not_lt.mp notLower)

end Bounded

/-- The loop keeps its estimates above the root and lowers `x`. -/
theorem next_descends
    {value : BigInt}
    (positive : 0 < value.value) :
    Descends descends (next value) (Bounded value)
      (fun state => state.x.value.toNat) where
  performs := by
    intro state bounded entered
    have lower : state.y.value < state.x.value := (BigInt.less_iff _ _).mp entered
    refine ⟨_, next_eq positive.le (bounded.y_pos positive), ?_, ?_⟩
    · exact ⟨bounded.y_above positive, BigInt.value_demote _⟩
    · exact (Int.toNat_lt_toNat (bounded.x_pos positive)).mpr lower

/-- The variables before the first test. -/
theorem bounded_start
    {value : BigInt}
    {first : NewtonState}
    (positive : 0 < value.value)
    (started : start value = .ok first) :
    Bounded value first := by
  cases (start_eq positive).symm.trans started
  exact ⟨NewtonRoot.self_mem_upperBounds value.value, BigInt.value_demote _⟩

end NewtonState

namespace BigInt

/-- The first guard. -/
theorem less_zero_iff (value : BigInt) :
    value.less (ofInt64 0) = true ↔ value.value < 0 :=
  less_iff value (ofInt64 0)

/-- The values that pass both guards are the positive ones. -/
theorem pos_iff_guards (value : BigInt) :
    0 < value.value ↔
      value.less (ofInt64 0) = false ∧ value.equals (ofInt64 0) = false := by
  rw [← Bool.not_eq_true, ← Bool.not_eq_true, less_zero_iff, equals_zero_iff, not_lt]
  exact lt_iff_le_and_ne.trans (and_congr_right' ne_comm)

/-- `isqrt` rejects a negative value. -/
theorem isqrt_of_neg
    {value : BigInt}
    (negative : value.value < 0)
    (tests : ℕ) :
    value.isqrt tests = some (.error (.domainError "isqrt: negative argument".toList)) :=
  if_pos ((less_zero_iff value).mpr negative)

/-- The root of zero is found before the loop. -/
theorem isqrt_of_zero
    {value : BigInt}
    (isZero : value.value = 0)
    (tests : ℕ) :
    value.isqrt tests = some (.ok (ofInt64 0)) := by
  have notLess : ¬value.less (ofInt64 0) = true :=
    fun less => ((less_zero_iff value).mp less).ne isZero
  rw [isqrt, if_neg notLess, if_pos ((equals_zero_iff value).mpr isZero)]

/-- Past its two guards, `isqrt` is its loop. -/
theorem isqrt_eq_loop
    {value : BigInt}
    {first : NewtonState}
    (positive : 0 < value.value)
    (started : NewtonState.start value = .ok first)
    (tests : ℕ) :
    value.isqrt tests =
      (whileLoop NewtonState.descends (NewtonState.next value) tests first).map
        (Except.map NewtonState.x) := by
  obtain ⟨notLess, notZero⟩ := (pos_iff_guards value).mp positive
  rw [isqrt, notLess, notZero, if_neg Bool.false_ne_true, if_neg Bool.false_ne_true, started]

/-- With one test more than the value, `isqrt` returns the root. -/
theorem isqrt_returns
    {value : BigInt}
    (notNegative : 0 ≤ value.value) :
    ∃ root : BigInt,
      (∀ tests,
        value.value.toNat < tests →
        value.isqrt tests = some (.ok root)) ∧
      IsGreatest (roots value.value) root.value := by
  rcases notNegative.eq_or_lt with isZero | positive
  · refine ⟨ofInt64 0, fun tests _ => isqrt_of_zero isZero.symm tests, ?_⟩
    rw [← isZero]
    exact NewtonRoot.isGreatest_zero
  · have started := NewtonState.start_eq positive
    obtain ⟨final, returned, bounded, stopped⟩ :=
      (NewtonState.next_descends positive).ends
        (NewtonState.bounded_start positive started)
    refine ⟨final.x, ?_, bounded.isGreatest positive stopped⟩
    intro tests enough
    rw [isqrt_eq_loop positive started, returned tests enough]
    rfl

/-- No division of `isqrt` is by zero. -/
theorem divisor_ne_zero
    {value divisor : BigInt}
    (divides : DividesBy value divisor) :
    divisor.value ≠ 0 := by
  cases divides with
  | two notNegative notZero =>
      exact two_ne_zero
  | estimate notNegative notZero started reached entered =>
      have positive : 0 < value.value :=
        (pos_iff_guards value).mpr ⟨notNegative, notZero⟩
      have bounded :=
        (NewtonState.next_descends positive).invariant_of_reaches
          (NewtonState.bounded_start positive started) reached
      exact (bounded.y_pos positive).ne'

/--
For every value that is not negative, `isqrt` ends, returns the greatest integer whose
square is at most the value, and never divides by zero on the way.
-/
theorem isqrt_isGreatest
    (value : BigInt)
    (notNegative : 0 ≤ value.value) :
    ∃ root : BigInt,
      (∀ tests,
        value.value.toNat < tests →
        value.isqrt tests = some (.ok root)) ∧
      IsGreatest {x : ℤ | x * x ≤ value.value} root.value ∧
      ∀ divisor,
        DividesBy value divisor →
        divisor.value ≠ 0 := by
  obtain ⟨root, returned, isRoot⟩ := isqrt_returns notNegative
  exact ⟨root, returned, isRoot, fun _ divides => divisor_ne_zero divides⟩

/-- The square root of a value that is one below a square. -/
theorem isqrt_isGreatest_ninetyNine :
    0 ≤ (ofInt64 99).value ∧
      ∃ root : BigInt,
        (∀ tests,
          (ofInt64 99).value.toNat < tests →
          (ofInt64 99).isqrt tests = some (.ok root)) ∧
        IsGreatest {x : ℤ | x * x ≤ (ofInt64 99).value} root.value ∧
        ∀ divisor,
          DividesBy (ofInt64 99) divisor →
          divisor.value ≠ 0 := by
  have notNegative : 0 ≤ (ofInt64 99).value := by
    decide
  exact ⟨notNegative, isqrt_isGreatest (ofInt64 99) notNegative⟩

example : (ofInt64 99).isqrt 10 = some (.ok (ofInt64 9)) := by
  decide +kernel

/-- `isqrt` has at most one outcome. -/
theorem isqrt_unique
    {value : BigInt}
    {tests otherTests : ℕ}
    {outcome other : Machine BigInt}
    (ended : value.isqrt tests = some outcome)
    (otherEnded : value.isqrt otherTests = some other) :
    outcome = other := by
  rcases lt_trichotomy value.value 0 with negative | isZero | positive
  · rw [isqrt_of_neg negative] at ended otherEnded
    exact Option.some.inj (ended.symm.trans otherEnded)
  · rw [isqrt_of_zero isZero] at ended otherEnded
    exact Option.some.inj (ended.symm.trans otherEnded)
  · have started := NewtonState.start_eq positive
    rw [isqrt_eq_loop positive started] at ended otherEnded
    obtain ⟨final, loopEnded, rfl⟩ := Option.map_eq_some_iff.mp ended
    obtain ⟨otherFinal, otherLoopEnded, rfl⟩ := Option.map_eq_some_iff.mp otherEnded
    rw [WhileLoop.outcome_unique loopEnded otherLoopEnded]

/--
Every outcome of `isqrt` is that of the same iteration on unbounded natural numbers, with
the error read as a `DomainError`.
-/
theorem isqrt_refines
    {value : BigInt}
    {tests : ℕ}
    {outcome : Machine BigInt}
    (ended : value.isqrt tests = some outcome) :
    outcome.map BigInt.value =
      (NumericaCore.isqrt value.value).mapError
        (fun error => .domainError error.message.toList) := by
  by_cases negative : value.value < 0
  · rw [isqrt_of_neg negative] at ended
    cases ended
    rw [NumericaCore.isqrt, if_pos negative]
    rfl
  · have notNegative : 0 ≤ value.value := not_lt.mp negative
    obtain ⟨root, returned, isRoot⟩ := isqrt_returns notNegative
    cases isqrt_unique ended (returned _ (Nat.lt_succ_self _))
    obtain ⟨natural, isNatural⟩ := Int.eq_ofNat_of_zero_le notNegative
    rw [isNatural] at isRoot ⊢
    rw [isqrt_eq_sqrt]
    exact congrArg Except.ok (isRoot.unique (NewtonRoot.isGreatest_sqrt natural))

end BigInt

/-- The default bound is the greatest integer whose doubled square is at most the modulus. -/
theorem actualBound_default
    {modulus : BigInt}
    (positive : 0 < modulus.value) :
    ∃ bound : BigInt,
      (∀ tests,
        modulus.value.toNat < tests →
        actualBound modulus none tests = some (.ok bound)) ∧
      IsGreatest {x : ℤ | x * x * 2 ≤ modulus.value} bound.value := by
  have half := BigInt.div_two positive.le
  have halfNotNegative : 0 ≤ (BigInt.demote (modulus.value / 2)).value := by
    rw [BigInt.value_demote]
    exact Int.ediv_nonneg positive.le zero_le_two
  obtain ⟨bound, returned, isRoot⟩ := BigInt.isqrt_returns halfNotNegative
  rw [BigInt.value_demote] at returned isRoot
  refine ⟨bound, ?_, ?_⟩
  · intro tests enough
    have atMost : (modulus.value / 2).toNat ≤ modulus.value.toNat :=
      Int.toNat_le_toNat (Int.ediv_le_self 2 positive.le)
    rw [actualBound, half]
    exact returned tests (atMost.trans_lt enough)
  · have sameSet : {x : ℤ | x * x * 2 ≤ modulus.value} = roots (modulus.value / 2) := by
      ext x
      exact (Int.le_ediv_iff_mul_le two_pos).symm
    rw [sameSet]
    exact isRoot

/-- The default bound is the one that `reconstruct` computes on the integers. -/
theorem actualBound_refines
    {modulus : BigInt}
    {tests : ℕ}
    {outcome : Machine BigInt}
    (ended : actualBound modulus none tests = some outcome) :
    outcome.map BigInt.value =
      (isqrt (modulus.value.tdiv 2)).mapError
        (fun error => .domainError error.message.toList) := by
  have half :
      modulus.div (BigInt.ofInt64 2) = .ok (BigInt.demote (modulus.value.tdiv 2)) :=
    BigInt.div_eq two_ne_zero
  rw [actualBound, half] at ended
  have refined := BigInt.isqrt_refines ended
  rw [BigInt.value_demote] at refined
  exact refined

end NumericaCore
