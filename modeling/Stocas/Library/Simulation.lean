import Stocas.Library.Outcome

namespace Simulation

/-!
# One computation follows another

A computation simulates another when both fail, with errors that belong together, or both
return, with results that do.  Unlike for related computations the errors need not be the
same, and the relation of errors may leave errors out: then neither computation throws them.
-/

universe u v w

variable {ε : Type u} {ζ : Type u} {α β γ δ : Type v}

/-- Errors that belong together, or results that do. -/
inductive Simulates
    (errors : ε → ζ → Prop)
    (results : α → β → Prop) :
    Except ε α → Except ζ β → Prop where
  | error
      {failure : ε}
      {other : ζ} :
      errors failure other →
      Simulates errors results (.error failure) (.error other)
  | ok
      {result : α}
      {other : β} :
      results result other →
      Simulates errors results (.ok result) (.ok other)

namespace Simulates

variable {errors : ε → ζ → Prop} {results : α → β → Prop} {later : γ → δ → Prop}

/-- One step after another. -/
theorem bind
    {first : Except ε α}
    {other : Except ζ β}
    {next : α → Except ε γ}
    {otherNext : β → Except ζ δ}
    (firstSimulates : Simulates errors results first other)
    (nextSimulates :
      ∀ result otherResult,
        results result otherResult →
        Simulates errors later (next result) (otherNext otherResult)) :
    Simulates errors later (first >>= next) (other >>= otherNext) := by
  cases firstSimulates with
  | error belong =>
      exact .error belong
  | ok belong =>
      exact nextSimulates _ _ belong

/-- A result of the simulating computation comes with one of the other. -/
theorem of_ok
    {result : α}
    {other : Except ζ β}
    (simulates : Simulates errors results (.ok result) other) :
    ∃ otherResult, other = .ok otherResult ∧ results result otherResult := by
  cases simulates with
  | ok belong =>
      exact ⟨_, rfl, belong⟩

end Simulates

end Simulation
