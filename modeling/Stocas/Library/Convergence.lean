import Mathlib.Order.Basic

namespace Convergence

/-!
# Repeating a step until nothing changes

A step is repeated on its own result until a pass leaves it unchanged or the allowed
number of passes is used up.  The outcome is described by the sequence of passes: the
first pass that changes nothing, the first one that fails, or neither.
-/

variable {ε σ : Type}

/-- The passes of a step, each on the result of the one before. -/
def passes (step : σ → Except ε σ) (start : σ) : ℕ → Except ε σ
  | 0 => .ok start
  | count + 1 => passes step start count >>= step

/-- Repeat until a pass leaves its input unchanged; `none` when the passes are used up. -/
def converge
    (step : σ → Except ε σ)
    (unchanged : σ → σ → Bool) :
    ℕ → σ → Except ε (Option σ)
  | 0, _ => .ok none
  | remaining + 1, current =>
      match step current with
      | .error error => .error error
      | .ok next =>
          if unchanged current next then
            .ok (some next)
          else
            converge step unchanged remaining next

/-- The pass after some passes succeeds and leaves its input unchanged. -/
def Settles
    (step : σ → Except ε σ)
    (unchanged : σ → σ → Bool)
    (start : σ)
    (count : ℕ) : Prop :=
  ∃ current next,
    passes step start count = .ok current ∧
      step current = .ok next ∧
      unchanged current next = true

variable {step : σ → Except ε σ} {unchanged : σ → σ → Bool} {start : σ}

/-- The passes after the first are those of its result. -/
theorem passes_succ
    {next : σ}
    (first : step start = .ok next)
    (count : ℕ) :
    passes step start (count + 1) = passes step next count := by
  induction count with
  | zero =>
      exact first
  | succ count inductionHypothesis =>
      rw [passes, inductionHypothesis, passes]

/-- A later pass settles when it does after the first pass. -/
theorem settles_succ
    {next : σ}
    (first : step start = .ok next)
    {count : ℕ} :
    Settles step unchanged start (count + 1) ↔ Settles step unchanged next count := by
  rw [Settles, passes_succ first, Settles]

/-- The first pass settles when it leaves the start unchanged. -/
theorem settles_zero
    {next : σ}
    (first : step start = .ok next) :
    Settles step unchanged start 0 ↔ unchanged start next = true := by
  constructor
  · rintro ⟨current, result, isStart, isNext, same⟩
    cases isStart
    rw [first] at isNext
    cases isNext
    exact same
  · intro same
    exact ⟨start, next, rfl, first, same⟩

/-- No pass settles when the first one does not and none after it does. -/
theorem forall_not_settles_succ
    {next : σ}
    (first : step start = .ok next)
    {bound : ℕ} :
    (∀ count < bound + 1, ¬ Settles step unchanged start count) ↔
      ¬ unchanged start next = true ∧
        ∀ count < bound, ¬ Settles step unchanged next count := by
  rw [Nat.forall_lt_succ_left, settles_zero first]
  simp only [settles_succ first]

/-- What is returned is the result of the first pass that settles. -/
theorem converge_eq_some
    {bound : ℕ}
    {result : σ}
    (returned : converge step unchanged bound start = .ok (some result)) :
    ∃ count < bound,
      (∃ current,
        passes step start count = .ok current ∧
          step current = .ok result ∧
          unchanged current result = true) ∧
      ∀ earlier < count, ¬ Settles step unchanged start earlier := by
  induction bound generalizing start with
  | zero =>
      cases returned
  | succ remaining inductionHypothesis =>
      rw [converge] at returned
      cases first : step start with
      | error error =>
          rw [first] at returned
          cases returned
      | ok next =>
          simp only [first] at returned
          split_ifs at returned with same
          · cases returned
            exact ⟨0, Nat.zero_lt_succ remaining, ⟨start, rfl, first, same⟩,
              fun _ earlier => absurd earlier (Nat.not_lt_zero _)⟩
          · obtain ⟨count, below, ⟨current, reached, last⟩, none⟩ :=
              inductionHypothesis returned
            refine ⟨count + 1, Nat.succ_lt_succ below,
              ⟨current, (passes_succ first count).trans reached, last⟩, ?_⟩
            exact (forall_not_settles_succ first).mpr ⟨same, none⟩

/-- When no pass fails, the passes are used up exactly when none of them settles. -/
theorem converge_eq_none_iff
    {bound : ℕ}
    (succeed : ∀ count ≤ bound, ∃ result, passes step start count = .ok result) :
    converge step unchanged bound start = .ok none ↔
      ∀ count < bound, ¬ Settles step unchanged start count := by
  induction bound generalizing start with
  | zero =>
      exact ⟨fun _ _ below => absurd below (Nat.not_lt_zero _), fun _ => rfl⟩
  | succ remaining inductionHypothesis =>
      obtain ⟨next, first⟩ := succeed 1 (Nat.succ_le_succ (Nat.zero_le remaining))
      have firstStep : step start = .ok next := first
      have later : ∀ count ≤ remaining, ∃ result, passes step next count = .ok result := by
        intro count below
        rw [← passes_succ firstStep]
        exact succeed (count + 1) (Nat.succ_le_succ below)
      rw [forall_not_settles_succ firstStep, converge]
      simp only [firstStep]
      split_ifs with same
      · constructor
        · intro impossible
          cases impossible
        · intro none
          exact absurd same none.1
      · rw [inductionHypothesis later]
        exact ⟨fun none => ⟨same, none⟩, fun none => none.2⟩

end Convergence
