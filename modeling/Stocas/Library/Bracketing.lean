import Mathlib.Data.List.Flatten
import Mathlib.Data.List.Perm.Basic

/-!
# Nested applications of an operation with any number of operands

A bracketing says how applications of one variadic operation are nested over given
values.  When every value has parts, an application has the parts of its operands and is
determined by them, nesting and order make no difference: a nested application is the one
application to all the values.
-/

universe u v w

/-- Values, grouped by nested applications. -/
inductive Bracketing (α : Type u) where
  | leaf (value : α)
  | apply (operands : List (Bracketing α))

namespace Bracketing

variable {α : Type u} {β : Type v} {γ : Type w}

mutual

/-- The values, from left to right. -/
def leaves : Bracketing α → List α
  | .leaf value => [value]
  | .apply operands => leavesOf operands

/-- The values of a list of bracketings. -/
def leavesOf : List (Bracketing α) → List α
  | [] => []
  | operand :: rest => leaves operand ++ leavesOf rest

end

mutual

/-- The result when the operation and the values are given. -/
def value (combine : List β → β) (read : α → β) : Bracketing α → β
  | .leaf value => read value
  | .apply operands => combine (values combine read operands)

/-- The results of a list of bracketings. -/
def values (combine : List β → β) (read : α → β) : List (Bracketing α) → List β
  | [] => []
  | operand :: rest => value combine read operand :: values combine read rest

end

mutual

/-- A result depends on what is read at the values only. -/
theorem value_congr
    {combine : List β → β}
    {read other : α → β} :
    ∀ bracketing : Bracketing α,
      (∀ leaf ∈ leaves bracketing, read leaf = other leaf) →
      value combine read bracketing = value combine other bracketing
  | .leaf single, same => by
      rw [value, value]
      exact same single (by rw [leaves]; exact List.mem_singleton.mpr rfl)
  | .apply operands, same => by
      rw [value, value, values_congr operands same]

/-- The results of a list depend on what is read at the values only. -/
theorem values_congr
    {combine : List β → β}
    {read other : α → β} :
    ∀ operands : List (Bracketing α),
      (∀ leaf ∈ leavesOf operands, read leaf = other leaf) →
      values combine read operands = values combine other operands
  | [], _ => rfl
  | operand :: rest, same => by
      rw [leavesOf] at same
      obtain ⟨here, later⟩ := List.forall_mem_append.mp same
      rw [values, values, value_congr operand here, values_congr rest later]

end

/-- Every application has at least two operands. -/
inductive Proper : Bracketing α → Prop where
  | leaf (value : α) :
      Proper (.leaf value)
  | apply
      {operands : List (Bracketing α)} :
      2 ≤ operands.length →
      (∀ operand ∈ operands, Proper operand) →
      Proper (.apply operands)

/-- An application has the parts of its operands and is determined by them. -/
structure Splices (combine : List β → β) (parts : β → List γ) : Prop where
  parts_combine :
    ∀ operands, (parts (combine operands)).Perm (operands.flatMap parts)
  combine_congr :
    ∀ operands others,
      (operands.flatMap parts).Perm (others.flatMap parts) →
      combine operands = combine others

section Splicing

variable {combine : List β → β} {parts : β → List γ} {read : α → β}

mutual

/-- A bracketing has the parts of its values. -/
theorem parts_value
    (splices : Splices combine parts) :
    ∀ bracketing : Bracketing α,
      (parts (value combine read bracketing)).Perm
        ((leaves bracketing).flatMap fun leaf => parts (read leaf))
  | .leaf single => by
      rw [value, leaves, List.flatMap_singleton]
  | .apply operands => by
      rw [value, leaves]
      exact (splices.parts_combine _).trans (parts_values splices operands)

/-- A list of bracketings has the parts of its values. -/
theorem parts_values
    (splices : Splices combine parts) :
    ∀ operands : List (Bracketing α),
      ((values combine read operands).flatMap parts).Perm
        ((leavesOf operands).flatMap fun leaf => parts (read leaf))
  | [] => by
      rw [values, leavesOf, List.flatMap_nil, List.flatMap_nil]
  | operand :: rest => by
      rw [values, leavesOf, List.flatMap_cons, List.flatMap_append]
      exact (parts_value splices operand).append (parts_values splices rest)

end

/-- Nested applications are one application to all the values, in any order. -/
theorem value_apply
    (splices : Splices combine parts)
    {operands : List (Bracketing α)}
    {all : List α}
    (order : (leavesOf operands).Perm all) :
    value combine read (.apply operands) = combine (all.map read) := by
  rw [value]
  apply splices.combine_congr
  rw [List.flatMap_map]
  exact (parts_values splices operands).trans (order.flatMap_right _)

end Splicing

/-- An application has at least as many values as operands. -/
theorem length_le_leavesOf
    {operands : List (Bracketing α)}
    (nonempty : ∀ operand ∈ operands, 1 ≤ (leaves operand).length) :
    operands.length ≤ (leavesOf operands).length := by
  induction operands with
  | nil =>
      exact Nat.zero_le _
  | cons operand rest inductionHypothesis =>
      obtain ⟨here, later⟩ := List.forall_mem_cons.mp nonempty
      rw [leavesOf, List.length_cons, List.length_append, Nat.add_comm]
      exact Nat.add_le_add here (inductionHypothesis later)

/-- A proper bracketing has a value. -/
theorem Proper.one_le
    {bracketing : Bracketing α}
    (proper : Proper bracketing) :
    1 ≤ (leaves bracketing).length := by
  induction proper with
  | leaf value =>
      exact Nat.le_refl 1
  | apply two _ inductionHypothesis =>
      rw [leaves]
      exact Nat.le_trans (Nat.le_of_lt two) (length_le_leavesOf inductionHypothesis)

/-- A proper application has at least two values. -/
theorem Proper.two_le
    {operands : List (Bracketing α)}
    (proper : Proper (.apply operands)) :
    2 ≤ (leavesOf operands).length := by
  cases proper with
  | apply two all =>
      exact Nat.le_trans two
        (length_le_leavesOf fun operand member => (all operand member).one_le)

/-- A proper bracketing of one value is that value. -/
theorem Proper.eq_leaf
    {bracketing : Bracketing α}
    (proper : Proper bracketing)
    {only : α}
    (single : (leaves bracketing).Perm [only]) :
    bracketing = .leaf only := by
  cases bracketing with
  | leaf value =>
      rw [leaves, List.perm_singleton, List.singleton_inj] at single
      rw [single]
  | apply operands =>
      have two := proper.two_le
      rw [leaves] at single
      rw [single.length_eq] at two
      exact absurd two (by simp)

/-- Proper bracketings of the same values have one result. -/
theorem Proper.value_eq
    {combine : List β → β}
    {parts : β → List γ}
    (splices : Splices combine parts)
    {first second : Bracketing α}
    (firstProper : Proper first)
    (secondProper : Proper second)
    (order : (leaves first).Perm (leaves second))
    (read : α → β) :
    value combine read first = value combine read second := by
  cases first with
  | leaf only =>
      rw [secondProper.eq_leaf order.symm]
  | apply operands =>
      cases second with
      | leaf only =>
          rw [firstProper.eq_leaf order]
      | apply others =>
          rw [value_apply splices order, value_apply splices (List.Perm.refl _), leaves]

end Bracketing
