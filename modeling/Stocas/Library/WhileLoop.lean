import Mathlib.Data.Nat.Basic

namespace WhileLoop

/-!
# Loops whose body may fail

A `while` loop tests its guard, performs its body and starts again.  The loop here is given
a number of tests and has no outcome when they run out, so that an outcome is evidence that
the loop ends.  What the body keeps while it lowers a natural number makes the loop end
without a failure.
-/

variable {State Failure : Type*}

/-- The outcome of the loop, if it needs at most the given number of tests. -/
def whileLoop
    (guard : State → Bool)
    (body : State → Except Failure State) :
    ℕ → State → Option (Except Failure State)
  | 0, _ => none
  | tests + 1, state =>
      if guard state then
        match body state with
        | .error failure => some (.error failure)
        | .ok next => whileLoop guard body tests next
      else
        some (.ok state)

/-- The states in which the guard is tested. -/
inductive Reaches
    (guard : State → Bool)
    (body : State → Except Failure State)
    (start : State) :
    State → Prop
  | start : Reaches guard body start start
  | next
      {state next : State}
      (earlier : Reaches guard body start state)
      (entered : guard state = true)
      (performed : body state = .ok next) :
      Reaches guard body start next

variable {guard : State → Bool} {body : State → Except Failure State}

theorem whileLoop_stop
    {state : State}
    (left : guard state = false)
    (tests : ℕ) :
    whileLoop guard body (tests + 1) state = some (.ok state) := by
  simp [whileLoop, left]

theorem whileLoop_fail
    {state : State}
    {failure : Failure}
    (entered : guard state = true)
    (failed : body state = .error failure)
    (tests : ℕ) :
    whileLoop guard body (tests + 1) state = some (.error failure) := by
  simp [whileLoop, entered, failed]

theorem whileLoop_step
    {state next : State}
    (entered : guard state = true)
    (performed : body state = .ok next)
    (tests : ℕ) :
    whileLoop guard body (tests + 1) state = whileLoop guard body tests next := by
  simp [whileLoop, entered, performed]

/-- An outcome stays the same when more tests are allowed. -/
theorem whileLoop_of_le
    {fewer more : ℕ}
    {state : State}
    {outcome : Except Failure State}
    (ended : whileLoop guard body fewer state = some outcome)
    (atLeast : fewer ≤ more) :
    whileLoop guard body more state = some outcome := by
  induction fewer generalizing more state with
  | zero =>
      cases ended
  | succ fewer inductionHypothesis =>
      obtain ⟨more, rfl⟩ := Nat.exists_eq_add_one_of_ne_zero (Nat.ne_zero_of_lt atLeast)
      have stillAtLeast : fewer ≤ more := Nat.le_of_succ_le_succ atLeast
      cases entered : guard state with
      | false =>
          rw [whileLoop_stop entered] at ended ⊢
          exact ended
      | true =>
          cases performed : body state with
          | error failure =>
              rw [whileLoop_fail entered performed] at ended ⊢
              exact ended
          | ok next =>
              rw [whileLoop_step entered performed] at ended ⊢
              exact inductionHypothesis ended stillAtLeast

/-- The loop has at most one outcome. -/
theorem outcome_unique
    {tests otherTests : ℕ}
    {state : State}
    {outcome other : Except Failure State}
    (ended : whileLoop guard body tests state = some outcome)
    (otherEnded : whileLoop guard body otherTests state = some other) :
    outcome = other := by
  have first := whileLoop_of_le ended (Nat.le_max_left tests otherTests)
  have second := whileLoop_of_le otherEnded (Nat.le_max_right tests otherTests)
  exact Option.some.inj (first.symm.trans second)

/-- The body keeps the invariant, does not fail and lowers the variant. -/
structure Descends
    (guard : State → Bool)
    (body : State → Except Failure State)
    (invariant : State → Prop)
    (variant : State → ℕ) : Prop where
  performs :
    ∀ {state},
      invariant state →
      guard state = true →
      ∃ next,
        body state = .ok next ∧
          invariant next ∧
          variant next < variant state

namespace Descends

variable {invariant : State → Prop} {variant : State → ℕ}

/-- The invariant holds at every test. -/
theorem invariant_of_reaches
    (descends : Descends guard body invariant variant)
    {start state : State}
    (atStart : invariant start)
    (reached : Reaches guard body start state) :
    invariant state := by
  induction reached with
  | start =>
      exact atStart
  | next earlier entered performed inductionHypothesis =>
      obtain ⟨next, isNext, kept, _⟩ := descends.performs inductionHypothesis entered
      cases performed.symm.trans isNext
      exact kept

/-- The loop ends in a state of the invariant, after at most one test more than the variant. -/
theorem ends
    (descends : Descends guard body invariant variant)
    {start : State}
    (atStart : invariant start) :
    ∃ final,
      (∀ tests,
        variant start < tests →
        whileLoop guard body tests start = some (.ok final)) ∧
      invariant final ∧
      guard final = false := by
  induction size : variant start using Nat.strong_induction_on generalizing start with
  | h bound inductionHypothesis =>
      cases entered : guard start with
      | false =>
          refine ⟨start, ?_, atStart, entered⟩
          intro tests enough
          obtain ⟨tests, rfl⟩ := Nat.exists_eq_add_one_of_ne_zero (Nat.ne_zero_of_lt enough)
          exact whileLoop_stop entered tests
      | true =>
          obtain ⟨next, performed, kept, lower⟩ := descends.performs atStart entered
          obtain ⟨final, returned, finalKept, left⟩ :=
            inductionHypothesis (variant next) (size ▸ lower) kept rfl
          refine ⟨final, ?_, finalKept, left⟩
          intro tests enough
          obtain ⟨tests, rfl⟩ := Nat.exists_eq_add_one_of_ne_zero (Nat.ne_zero_of_lt enough)
          rw [whileLoop_step entered performed]
          exact returned tests (lt_of_lt_of_le (size ▸ lower) (Nat.le_of_lt_succ enough))

end Descends

end WhileLoop
