import Mathlib.Algebra.BigOperators.Group.List.Basic
import Mathlib.Data.List.Forall2

namespace Aggregate

/-!
# Totals of lists whose items denote something

A relation says which values an item denotes; an item may denote none.  `Total`
holds of a list and a product of one denoted value for each item, so a list with
an undefined item has no total.  Totals do not depend on the order of the items.
-/

variable {α β M : Type*} [CommMonoid M]

/-- Every item denotes something, and the product of it all is `total`. -/
def Total (denotes : α → M → Prop) (items : List α) (total : M) : Prop :=
  ∃ values : List M,
    List.Forall₂ denotes items values ∧ values.prod = total

variable {denotes : α → M → Prop} {items others : List α} {total : M}

@[simp] theorem total_nil :
    Total denotes [] total ↔ total = 1 := by
  constructor
  · rintro ⟨values, all, same⟩
    cases all
    exact same.symm
  · rintro rfl
    exact ⟨[], List.Forall₂.nil, rfl⟩

theorem total_cons
    {item : α} :
    Total denotes (item :: items) total ↔
      ∃ value rest,
        denotes item value ∧ Total denotes items rest ∧ value * rest = total := by
  constructor
  · rintro ⟨values, all, same⟩
    cases all with
    | @cons _ value _ values first later =>
        exact ⟨value, values.prod, first, ⟨values, later, rfl⟩,
          by rw [← same, List.prod_cons]⟩
  · rintro ⟨value, rest, first, ⟨values, later, same⟩, isTotal⟩
    exact ⟨value :: values, List.Forall₂.cons first later,
      by rw [List.prod_cons, same, isTotal]⟩

@[simp] theorem total_singleton
    {item : α} :
    Total denotes [item] total ↔ denotes item total := by
  rw [total_cons]
  constructor
  · rintro ⟨value, rest, denoted, nothing, rfl⟩
    rwa [total_nil.mp nothing, mul_one]
  · intro denoted
    exact ⟨total, 1, denoted, total_nil.mpr rfl, mul_one total⟩

theorem total_append :
    Total denotes (items ++ others) total ↔
      ∃ first second,
        Total denotes items first ∧
          Total denotes others second ∧ first * second = total := by
  induction items generalizing total with
  | nil =>
      constructor
      · intro all
        exact ⟨1, total, total_nil.mpr rfl, all, one_mul total⟩
      · rintro ⟨first, second, nothing, all, rfl⟩
        rwa [total_nil.mp nothing, one_mul]
  | cons item rest inductionHypothesis =>
      rw [List.cons_append, total_cons]
      constructor
      · rintro ⟨value, later, denoted, all, rfl⟩
        obtain ⟨first, second, restTotal, othersTotal, rfl⟩ :=
          inductionHypothesis.mp all
        exact ⟨value * first, second,
          total_cons.mpr ⟨value, first, denoted, restTotal, rfl⟩,
          othersTotal, mul_assoc value first second⟩
      · rintro ⟨first, second, itemsTotal, othersTotal, rfl⟩
        obtain ⟨value, later, denoted, restTotal, rfl⟩ := total_cons.mp itemsTotal
        exact ⟨value, later * second, denoted,
          inductionHypothesis.mpr ⟨later, second, restTotal, othersTotal, rfl⟩,
          (mul_assoc value later second).symm⟩

/-- Reordering items keeps their total. -/
theorem Total.perm
    (all : Total denotes items total)
    (same : items.Perm others) :
    Total denotes others total := by
  induction same generalizing total with
  | nil =>
      exact all
  | cons item _ inductionHypothesis =>
      obtain ⟨value, rest, denoted, later, rfl⟩ := total_cons.mp all
      exact total_cons.mpr ⟨value, rest, denoted, inductionHypothesis later, rfl⟩
  | swap first second rest =>
      obtain ⟨one, later, oneDenoted, laterTotal, rfl⟩ := total_cons.mp all
      obtain ⟨two, last, twoDenoted, lastTotal, rfl⟩ := total_cons.mp laterTotal
      exact total_cons.mpr
        ⟨two, one * last, twoDenoted,
          total_cons.mpr ⟨one, last, oneDenoted, lastTotal, rfl⟩,
          mul_left_comm two one last⟩
  | trans _ _ first second =>
      exact second (first all)

/-- Replacing every item by items with the same total keeps the total. -/
theorem Total.flatMap
    {denotes' : β → M → Prop}
    {replace : α → List β}
    (all : Total denotes items total)
    (sameTotal :
      ∀ item ∈ items, ∀ value,
        denotes item value → Total denotes' (replace item) value) :
    Total denotes' (items.flatMap replace) total := by
  induction items generalizing total with
  | nil =>
      simpa using all
  | cons item rest inductionHypothesis =>
      obtain ⟨value, later, denoted, restTotal, rfl⟩ := total_cons.mp all
      rw [List.flatMap_cons, total_append]
      exact ⟨value, later, sameTotal item (by simp) value denoted,
        inductionHypothesis restTotal fun other member =>
          sameTotal other (by simp [member]),
        rfl⟩

/-- Replacing every item by one that denotes the same keeps the total. -/
theorem Total.map
    {denotes' : β → M → Prop}
    {replace : α → β}
    (all : Total denotes items total)
    (sameValue :
      ∀ item ∈ items, ∀ value,
        denotes item value → denotes' (replace item) value) :
    Total denotes' (items.map replace) total := by
  rw [List.map_eq_flatMap]
  refine all.flatMap fun item member value denoted => ?_
  exact total_singleton.mpr (sameValue item member value denoted)

end Aggregate
