import Stocas.Library.Related

namespace GrowingState

open RelatedOutcomes (Related)

/-!
# Computations on a state that grows

A computation that throws leaves the state that it has reached.  A computation over
representations in such a state follows one over what they represent when it throws the
same error or returns a representation of the same result, and in either case leaves a good
state that the old one has grown into.
-/

variable {ε σ α β γ δ : Type}

/-- A computation that may throw, on a state that it changes either way. -/
def Stateful (ε σ α : Type) : Type :=
  σ → Except ε α × σ

namespace Stateful

/-- One step after another; an error ends the computation and keeps the state. -/
def next
    (first : Stateful ε σ α)
    (continue_ : α → Stateful ε σ β) :
    Stateful ε σ β := fun state =>
  match first state with
  | (.error error, reached) => (.error error, reached)
  | (.ok value, reached) => continue_ value reached

instance : Monad (Stateful ε σ) where
  pure := fun value state => (.ok value, state)
  bind := next

/-- Throw an error. -/
def fail (error : ε) : Stateful ε σ α := fun state =>
  (.error error, state)

/-- A step that throws nothing. -/
def perform (call : σ → α × σ) : Stateful ε σ α := fun state =>
  (.ok (call state).1, (call state).2)

end Stateful

/-- Which states are good, and what a state may grow into. -/
structure Growth (σ : Type) where
  good : σ → Prop
  grows : σ → σ → Prop
  refl : ∀ state, grows state state
  trans : ∀ {first second third}, grows first second → grows second third → grows first third

namespace Growth

variable {growth : Growth σ} {shows_ : σ → α → β → Prop} {later : σ → γ → δ → Prop}
  {start : σ}

/-- The computation follows the other one from this state. -/
structure Follows
    (growth : Growth σ)
    (shows_ : σ → α → β → Prop)
    (start : σ)
    (computation : Stateful ε σ α)
    (other : Except ε β) : Prop where
  good : growth.good (computation start).2
  grown : growth.grows start (computation start).2
  related : Related (shows_ (computation start).2) (computation start).1 other

/-- Only what the computation does from this state matters. -/
theorem Follows.of_eq
    {computation same : Stateful ε σ α}
    {other : Except ε β}
    (follows : growth.Follows shows_ start computation other)
    (agrees : same start = computation start) :
    growth.Follows shows_ start same other := by
  obtain ⟨good, grown, related⟩ := follows
  rw [← agrees] at good grown related
  exact ⟨good, grown, related⟩

/-- A result that represents the other one already. -/
theorem follows_pure
    {value : α}
    {otherValue : β}
    (good : growth.good start)
    (isShown : shows_ start value otherValue) :
    growth.Follows shows_ start (pure value : Stateful ε σ α) (.ok otherValue) :=
  ⟨good, growth.refl start, .ok isShown⟩

/-- The same error. -/
theorem follows_fail
    (good : growth.good start)
    (error : ε) :
    growth.Follows shows_ start (Stateful.fail error : Stateful ε σ α) (.error error) :=
  ⟨good, growth.refl start, .error error⟩

/-- A step that delivers a representation. -/
theorem follows_perform
    {call : σ → α × σ}
    {otherValue : β}
    (good : growth.good (call start).2)
    (grown : growth.grows start (call start).2)
    (isShown : shows_ (call start).2 (call start).1 otherValue) :
    growth.Follows shows_ start (Stateful.perform call : Stateful ε σ α) (.ok otherValue) :=
  ⟨good, grown, .ok isShown⟩

/-- One step after another. -/
theorem Follows.bind
    {first : Stateful ε σ α}
    {other : Except ε β}
    {next : α → Stateful ε σ γ}
    {otherNext : β → Except ε δ}
    (firstFollows : growth.Follows shows_ start first other)
    (nextFollows :
      ∀ reached value otherValue,
        growth.good reached →
        growth.grows start reached →
        shows_ reached value otherValue →
        growth.Follows later reached (next value) (otherNext otherValue)) :
    growth.Follows later start (first >>= next) (other >>= otherNext) := by
  obtain ⟨good, grown, related⟩ := firstFollows
  rcases stepped : first start with ⟨outcome, reached⟩
  rw [stepped] at good grown related
  have unfolded : (first >>= next) start = Stateful.next first next start :=
    rfl
  cases related with
  | error error =>
      have ended : (first >>= next) start = (.error error, reached) := by
        rw [unfolded, Stateful.next, stepped]
      refine ⟨?_, ?_, ?_⟩
      · rw [ended]
        exact good
      · rw [ended]
        exact grown
      · rw [ended]
        exact .error error
  | ok isShown =>
      rename_i value otherValue
      have continued : (first >>= next) start = next value reached := by
        rw [unfolded, Stateful.next, stepped]
      obtain ⟨lastGood, lastGrown, lastRelated⟩ :=
        nextFollows reached value otherValue good grown isShown
      refine ⟨?_, ?_, ?_⟩
      · rw [continued]
        exact lastGood
      · rw [continued]
        exact growth.trans grown lastGrown
      · rw [continued]
        exact lastRelated

/-- A step for a value that the other computation has already. -/
theorem Follows.step
    {first : Stateful ε σ α}
    {otherValue : β}
    {next : α → Stateful ε σ γ}
    {other : Except ε δ}
    (firstFollows : growth.Follows shows_ start first (.ok otherValue))
    (nextFollows :
      ∀ reached value,
        growth.good reached →
        growth.grows start reached →
        shows_ reached value otherValue →
        growth.Follows later reached (next value) other) :
    growth.Follows later start (first >>= next) other := by
  have strengthened :
      growth.Follows
        (fun reached value found => shows_ reached value found ∧ found = otherValue)
        start first (.ok otherValue) := by
    obtain ⟨good, grown, related⟩ := firstFollows
    obtain ⟨value, returned, isShown⟩ := related.of_ok
    refine ⟨good, grown, ?_⟩
    rw [returned]
    exact .ok ⟨isShown, rfl⟩
  have otherAsBind : other = (Except.ok otherValue >>= fun _ => other) :=
    rfl
  rw [otherAsBind]
  refine strengthened.bind ?_
  rintro reached value _ good grown ⟨isShown, rfl⟩
  exact nextFollows reached value good grown isShown

/-- A step beside a function of the other result. -/
theorem Follows.bind_map
    {first : Stateful ε σ α}
    {other : Except ε β}
    {next : α → Stateful ε σ γ}
    {function : β → δ}
    (firstFollows : growth.Follows shows_ start first other)
    (nextFollows :
      ∀ reached value otherValue,
        growth.good reached →
        growth.grows start reached →
        shows_ reached value otherValue →
        growth.Follows later reached (next value) (.ok (function otherValue))) :
    growth.Follows later start (first >>= next) (other.map function) := by
  have asBind : other.map function = other >>= fun value => .ok (function value) := by
    cases other <;> rfl
  rw [asBind]
  exact firstFollows.bind nextFollows

end Growth

end GrowingState
