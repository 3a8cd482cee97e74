import Mathlib.Data.List.GetD

/-!
# Lists built from their own entries

Each list is the one before it with an entry more, which is computed from the earlier
entries.
-/

/-- The lists start with one entry, and the next entry comes from the list so far. -/
structure CourseOfValues
    {α : Type*}
    (lists : ℕ → List α)
    (first : α)
    (next : ℕ → List α → α) :
    Prop where
  zero : lists 0 = [first]
  succ : ∀ k, lists (k + 1) = lists k ++ [next k (lists k)]

namespace CourseOfValues

variable {α : Type*} {lists : ℕ → List α} {first : α} {next : ℕ → List α → α}

theorem length_eq
    (course : CourseOfValues lists first next)
    (k : ℕ) :
    (lists k).length = k + 1 := by
  induction k with
  | zero =>
      rw [course.zero, List.length_singleton]
  | succ k inductionHypothesis =>
      rw [course.succ, List.length_append, inductionHypothesis, List.length_singleton]

/-- An entry stays what it was when it was computed. -/
theorem getD_eq
    (course : CourseOfValues lists first next)
    (default : α)
    {j k : ℕ}
    (within : j ≤ k) :
    (lists k).getD j default = (lists j).getD j default := by
  induction within with
  | refl =>
      rfl
  | @step k earlier inductionHypothesis =>
      have inside : j < (lists k).length := by
        rw [course.length_eq]
        exact Nat.lt_succ_of_le earlier
      rw [course.succ, List.getD_append _ _ _ _ inside, inductionHypothesis]

theorem getD_succ
    (course : CourseOfValues lists first next)
    (default : α)
    {j k : ℕ}
    (within : j + 1 ≤ k) :
    (lists k).getD (j + 1) default = next j (lists j) := by
  rw [course.getD_eq default within, course.succ,
    List.getD_append_right _ _ _ _ (Nat.le_of_eq (course.length_eq j)),
    course.length_eq, Nat.sub_self, List.getD_cons_zero]

end CourseOfValues
