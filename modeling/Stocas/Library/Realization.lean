import Mathlib.Data.List.Basic

namespace Realization

/-!
# Loops that never fail

A loop in `Except` realizes a loop of pure steps when each of its steps returns, and keeps
a relation between the concrete and the abstract state.
-/

universe u v

variable {ε : Type u} {σ : Type v} {τ α : Type*}

/-- One step after another. -/
theorem exists_foldlM_of_step
    {step : σ → α → Except ε σ}
    {pureStep : τ → α → τ}
    {denotes : σ → τ → Prop}
    {items : List α}
    (returns :
      ∀ item ∈ items, ∀ concrete abstract,
        denotes concrete abstract →
        ∃ next, step concrete item = .ok next ∧ denotes next (pureStep abstract item))
    {concrete : σ}
    {abstract : τ}
    (start : denotes concrete abstract) :
    ∃ result,
      items.foldlM step concrete = .ok result ∧
        denotes result (items.foldl pureStep abstract) := by
  induction items generalizing concrete abstract with
  | nil =>
      exact ⟨concrete, rfl, start⟩
  | cons item items inductionHypothesis =>
      obtain ⟨next, stepped, isNext⟩ :=
        returns item List.mem_cons_self concrete abstract start
      obtain ⟨result, looped, isResult⟩ :=
        inductionHypothesis (fun other member => returns other (List.mem_cons_of_mem _ member))
          isNext
      refine ⟨result, ?_, isResult⟩
      rw [List.foldlM_cons, stepped]
      exact looped

end Realization
