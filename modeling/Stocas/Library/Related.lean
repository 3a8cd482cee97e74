import Stocas.Library.Recorded

namespace RelatedOutcomes

open RecordedOutcomes (Recorded fail note)

/-!
# Two computations side by side

Two computations are related when they fail with the same error or return related
results.  A program over a concrete representation follows one over what it represents
step by step: related first steps and, on their results, related rests.
-/

variable {ε ω α β γ δ : Type}

/-- The same error, or related results. -/
inductive Related (related : α → β → Prop) : Except ε α → Except ε β → Prop where
  | error (error : ε) : Related related (.error error) (.error error)
  | ok
      {result : α}
      {other : β} :
      related result other →
      Related related (.ok result) (.ok other)

variable {related : α → β → Prop} {relatedLater : γ → δ → Prop}

/-- One step after another. -/
theorem Related.bind
    {first : Except ε α}
    {other : Except ε β}
    {next : α → Except ε γ}
    {otherNext : β → Except ε δ}
    (firstRelated : Related related first other)
    (nextRelated :
      ∀ result otherResult,
        related result otherResult →
        Related relatedLater (next result) (otherNext otherResult)) :
    Related relatedLater (first >>= next) (other >>= otherNext) := by
  cases firstRelated with
  | error error =>
      exact .error error
  | ok resultsRelated =>
      exact nextRelated _ _ resultsRelated

/-- A step beside a function of the other result. -/
theorem Related.bind_map
    {first : Except ε α}
    {other : Except ε β}
    {next : α → Except ε γ}
    {function : β → δ}
    (firstRelated : Related related first other)
    (nextRelated :
      ∀ result otherResult,
        related result otherResult →
        Related relatedLater (next result) (.ok (function otherResult))) :
    Related relatedLater (first >>= next) (other.map function) := by
  cases firstRelated with
  | error error =>
      exact .error error
  | ok resultsRelated =>
      exact nextRelated _ _ resultsRelated

/-- A weaker relation. -/
theorem Related.imp
    {weaker : α → β → Prop}
    (implies : ∀ result other, related result other → weaker result other)
    {first : Except ε α}
    {other : Except ε β}
    (firstRelated : Related related first other) :
    Related weaker first other := by
  cases firstRelated with
  | error error =>
      exact .error error
  | ok resultsRelated =>
      exact .ok (implies _ _ resultsRelated)

/-- Related computations succeed together. -/
theorem Related.of_ok
    {first : Except ε α}
    {otherResult : β}
    (firstRelated : Related related first (.ok otherResult)) :
    ∃ result, first = .ok result ∧ related result otherResult := by
  cases firstRelated with
  | ok resultsRelated =>
      exact ⟨_, rfl, resultsRelated⟩

/-- Related computations succeed together. -/
theorem Related.ok_of
    {other : Except ε β}
    {result : α}
    (firstRelated : Related related (.ok result) other) :
    ∃ otherResult, other = .ok otherResult ∧ related result otherResult := by
  cases firstRelated with
  | ok resultsRelated =>
      exact ⟨_, rfl, resultsRelated⟩

/-- Errors renamed in the same way. -/
theorem Related.mapError
    {ζ : Type}
    {first : Except ε α}
    {other : Except ε β}
    (firstRelated : Related related first other)
    (rename : ε → ζ) :
    Related related (first.mapError rename) (other.mapError rename) := by
  cases firstRelated with
  | error error =>
      exact .error (rename error)
  | ok resultsRelated =>
      exact .ok resultsRelated

/-- Runs of related steps. -/
theorem related_foldlM
    {step : α → γ → Except ε α}
    {otherStep : β → γ → Except ε β}
    (stepRelated :
      ∀ state other action,
        related state other →
        Related related (step state action) (otherStep other action))
    (actions : List γ)
    {start : α}
    {otherStart : β}
    (startRelated : related start otherStart) :
    Related related (actions.foldlM step start) (actions.foldlM otherStep otherStart) := by
  induction actions generalizing start otherStart with
  | nil =>
      exact .ok startRelated
  | cons action rest inductionHypothesis =>
      rw [List.foldlM_cons, List.foldlM_cons]
      refine (stepRelated start otherStart action startRelated).bind ?_
      intro next otherNext nextRelated
      exact inductionHypothesis nextRelated

@[simp] theorem result_pure (value : α) :
    (pure value : Recorded ε ω α).result = .ok value :=
  rfl

@[simp] theorem result_fail (error : ε) :
    (fail error : Recorded ε ω α).result = .error error :=
  rfl

@[simp] theorem result_note (item : ω) :
    (note item : Recorded ε ω Unit).result = .ok () :=
  rfl

/-- The result of two steps does not depend on the record. -/
@[simp] theorem result_bind
    (first : Recorded ε ω α)
    (next : α → Recorded ε ω γ) :
    (first >>= next).result = first.result >>= fun value => (next value).result := by
  rcases first with ⟨outcome, record⟩
  cases outcome with
  | error error =>
      rfl
  | ok value =>
      rfl

end RelatedOutcomes
