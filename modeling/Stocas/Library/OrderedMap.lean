import Mathlib.Algebra.Group.Basic
import Mathlib.Algebra.Order.Group.Unbundled.Basic
import Mathlib.Order.Compare
import Mathlib.Data.List.Perm.Basic
import Stocas.Library.Aggregate

namespace OrderedMap

/-!
# Totals under ordered keys

An ordered map is a list of entries with increasing keys.  `accumulate` finds
the entry of a key, creating it with the neutral amount when there is none, and
adds to it.  The laws say what happens to the entries as a multiset, how a value
denoted by all entries together changes, and that a map of keys which respects
the comparison commutes with accumulation.
-/

variable {κ V : Type*}

/-- Add an amount to the entry of a key, in key order. -/
def accumulate
    [Add V]
    [Zero V]
    (cmp : κ → κ → Ordering)
    (key : κ)
    (amount : V) :
    List (κ × V) → List (κ × V)
  | [] => [(key, 0 + amount)]
  | entry :: rest =>
      match cmp key entry.1 with
      | .lt => (key, 0 + amount) :: entry :: rest
      | .eq => (entry.1, entry.2 + amount) :: rest
      | .gt => entry :: accumulate cmp key amount rest

/-- Keys increase strictly. -/
def Sorted [LT κ] (entries : List (κ × V)) : Prop :=
  entries.Pairwise fun first second => first.1 < second.1

/-- Only the accumulated key can be new. -/
theorem mem_keys_accumulate
    [Add V]
    [Zero V]
    {cmp : κ → κ → Ordering}
    {key other : κ}
    {amount : V}
    {entries : List (κ × V)}
    (member : other ∈ (accumulate cmp key amount entries).map Prod.fst) :
    other = key ∨ other ∈ entries.map Prod.fst := by
  induction entries with
  | nil =>
      simpa [accumulate] using member
  | cons entry rest inductionHypothesis =>
      simp only [accumulate] at member
      split at member
      · simpa using member
      · exact Or.inr member
      · simp only [List.map_cons, List.mem_cons] at member ⊢
        rcases member with same | later
        · exact Or.inr (Or.inl same)
        · rcases inductionHypothesis later with same | older
          · exact Or.inl same
          · exact Or.inr (Or.inr older)

section Ordered

variable [LinearOrder κ] [AddZeroClass V]

/-- Accumulation keeps the keys sorted. -/
theorem sorted_accumulate
    {entries : List (κ × V)}
    (sorted : Sorted entries)
    (key : κ)
    (amount : V) :
    Sorted (accumulate compare key amount entries) := by
  induction entries with
  | nil =>
      exact List.pairwise_singleton _ _
  | cons entry rest inductionHypothesis =>
      obtain ⟨below, restSorted⟩ := List.pairwise_cons.mp sorted
      simp only [accumulate]
      split
      case h_1 first =>
        rw [compare_lt_iff_lt] at first
        refine List.pairwise_cons.mpr ⟨?_, sorted⟩
        intro later member
        rcases List.mem_cons.mp member with rfl | member
        · exact first
        · exact first.trans (below later member)
      case h_2 =>
        exact List.pairwise_cons.mpr ⟨below, restSorted⟩
      case h_3 after =>
        rw [compare_gt_iff_gt] at after
        refine List.pairwise_cons.mpr ⟨?_, inductionHypothesis restSorted⟩
        intro later member
        rcases mem_keys_accumulate (List.mem_map_of_mem member) with same | old
        · rw [same]
          exact after
        · obtain ⟨older, olderMember, same⟩ := List.mem_map.mp old
          rw [← same]
          exact below older olderMember

/-- A key is entered afresh, or its one entry grows. -/
theorem accumulate_cases
    {entries : List (κ × V)}
    (sorted : Sorted entries)
    (key : κ)
    (amount : V) :
    (key ∉ entries.map Prod.fst ∧
      (accumulate compare key amount entries).Perm ((key, amount) :: entries)) ∨
      ∃ old others,
        entries.Perm ((key, old) :: others) ∧
          (accumulate compare key amount entries).Perm
            ((key, old + amount) :: others) := by
  induction entries with
  | nil =>
      exact Or.inl ⟨by simp, by simp [accumulate]⟩
  | cons entry rest inductionHypothesis =>
      obtain ⟨below, restSorted⟩ := List.pairwise_cons.mp sorted
      simp only [accumulate]
      split
      case h_1 first =>
        rw [compare_lt_iff_lt] at first
        refine Or.inl ⟨?_, by simp⟩
        intro member
        obtain ⟨later, laterMember, same⟩ := List.mem_map.mp member
        rcases List.mem_cons.mp laterMember with rfl | laterMember
        · exact first.ne same.symm
        · exact (first.trans (below later laterMember)).ne same.symm
      case h_2 same =>
        rw [compare_eq_iff_eq] at same
        subst same
        exact Or.inr ⟨entry.2, rest, List.Perm.rfl, List.Perm.rfl⟩
      case h_3 after =>
        rw [compare_gt_iff_gt] at after
        rcases inductionHypothesis restSorted with ⟨absent, fresh⟩ | grown
        · refine Or.inl ⟨?_, ?_⟩
          · simp only [List.map_cons, List.mem_cons, not_or]
            exact ⟨after.ne', absent⟩
          · exact (fresh.cons entry).trans (List.Perm.swap _ _ _)
        · obtain ⟨old, others, before, afterwards⟩ := grown
          refine Or.inr ⟨old, entry :: others, ?_, ?_⟩
          · exact (before.cons entry).trans (List.Perm.swap _ _ _)
          · exact (afterwards.cons entry).trans (List.Perm.swap _ _ _)

/-- The keys are the old ones and the accumulated one. -/
theorem mem_keys_accumulate_iff
    {entries : List (κ × V)}
    (sorted : Sorted entries)
    {key other : κ}
    {amount : V} :
    other ∈ (accumulate compare key amount entries).map Prod.fst ↔
      other = key ∨ other ∈ entries.map Prod.fst := by
  rcases accumulate_cases sorted key amount with ⟨-, fresh⟩ | ⟨old, others, before, after⟩
  · rw [(fresh.map Prod.fst).mem_iff, List.map_cons, List.mem_cons]
  · rw [(after.map Prod.fst).mem_iff, (before.map Prod.fst).mem_iff, List.map_cons,
      List.map_cons, List.mem_cons, or_self_left]

/-- An entry is an old one of another key, or has the old amount of its key and the new. -/
theorem mem_accumulate
    {entries : List (κ × V)}
    (sorted : Sorted entries)
    {key : κ}
    {amount : V}
    {entry : κ × V}
    (member : entry ∈ accumulate compare key amount entries) :
    entry.1 ≠ key ∧ entry ∈ entries ∨
      entry.1 = key ∧
        ((∃ old, (key, old) ∈ entries ∧ entry.2 = old + amount) ∨
          key ∉ entries.map Prod.fst ∧ entry.2 = amount) := by
  rcases accumulate_cases sorted key amount with
    ⟨absent, fresh⟩ | ⟨old, others, before, after⟩
  · rcases List.mem_cons.mp (fresh.mem_iff.mp member) with rfl | older
    · exact Or.inr ⟨rfl, Or.inr ⟨absent, rfl⟩⟩
    · refine Or.inl ⟨?_, older⟩
      rintro rfl
      exact absent (List.mem_map_of_mem older)
  · rcases List.mem_cons.mp (after.mem_iff.mp member) with rfl | older
    · exact Or.inr ⟨rfl, Or.inl ⟨old, before.mem_iff.mpr List.mem_cons_self, rfl⟩⟩
    · refine Or.inl ⟨?_, before.mem_iff.mpr (List.mem_cons_of_mem _ older)⟩
      have keys : (entries.map Prod.fst).Nodup :=
        (List.pairwise_map.mpr sorted).imp fun below => below.ne
      have keysAfter := (before.map Prod.fst).nodup_iff.mp keys
      rw [List.map_cons, List.nodup_cons] at keysAfter
      intro isKey
      exact keysAfter.1 (List.mem_map.mpr ⟨entry, older, isKey⟩)

end Ordered

section Denotation

open Aggregate (Total total_nil total_cons)

variable {M : Type*} [CommMonoid M] {denotes : κ × V → M → Prop}

/--
When amounts of one key combine to the product of what they denote, accumulating
multiplies the total by what the new amount denotes.
-/
theorem total_accumulate
    [AddZeroClass V]
    {cmp : κ → κ → Ordering}
    (sameKey : ∀ {first second : κ}, cmp first second = .eq → first = second)
    (combines :
      ∀ {key : κ} {first second : V} {one two : M},
        denotes (key, first) one →
        denotes (key, second) two →
        denotes (key, first + second) (one * two))
    {key : κ}
    {amount : V}
    {value : M}
    (denoted : denotes (key, amount) value)
    {entries : List (κ × V)}
    {total : M}
    (before : Total denotes entries total) :
    Total denotes (accumulate cmp key amount entries) (total * value) := by
  have entered : Total denotes ((key, 0 + amount) :: entries) (total * value) :=
    total_cons.mpr
      ⟨value, total, by rwa [zero_add], before, mul_comm value total⟩
  induction entries generalizing total with
  | nil =>
      exact entered
  | cons entry rest inductionHypothesis =>
      simp only [accumulate]
      split
      case h_1 =>
        exact entered
      case h_2 same =>
        cases sameKey same
        obtain ⟨old, others, first, later, rfl⟩ := total_cons.mp before
        refine total_cons.mpr
          ⟨old * value, others, combines first denoted, later, ?_⟩
        exact mul_right_comm old value others
      case h_3 =>
        obtain ⟨old, others, first, later, rfl⟩ := total_cons.mp before
        have enteredLater :
            Total denotes ((key, 0 + amount) :: rest) (others * value) :=
          total_cons.mpr
            ⟨value, others, by rwa [zero_add], later, mul_comm value others⟩
        exact total_cons.mpr
          ⟨old, others * value, first, inductionHypothesis later enteredLater,
            (mul_assoc old others value).symm⟩

end Denotation

/-- Accumulation commutes with a map of keys that respects the comparison. -/
theorem map_accumulate
    {ι : Type*}
    [Add V]
    [Zero V]
    {cmp : ι → ι → Ordering}
    {cmp' : κ → κ → Ordering}
    {f : ι → κ}
    {key : ι}
    {amount : V}
    {entries : List (ι × V)}
    (respects :
      ∀ entry ∈ entries, cmp key entry.1 = cmp' (f key) (f entry.1)) :
    (accumulate cmp key amount entries).map (Prod.map f id) =
      accumulate cmp' (f key) amount (entries.map (Prod.map f id)) := by
  induction entries with
  | nil =>
      rfl
  | cons entry rest inductionHypothesis =>
      have first := respects entry (by simp)
      have later :=
        inductionHypothesis fun other member => respects other (by simp [member])
      simp only [accumulate, List.map_cons, Prod.map_fst, ← first]
      split
      · rfl
      · rfl
      · rw [List.map_cons, later]

end OrderedMap
