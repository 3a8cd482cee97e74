import Stocas.Library.Convergence
import Stocas.Pattern.RewriteValue
import Stocas.Pattern.SlotRewrite

namespace PatternCore

open AtomCore (AtomStore StringHash)
open AtomCore.AtomStore (Built Extends run_preserves)
open AtomCore.AtomStore.BuilderCall (Legal step)
open Convergence (Settles converge converge_eq_none_iff converge_eq_some passes)
open SymbolTable (Snapshot Text)
open Transition (EveryStep run)

/-!
# Rewriting until nothing changes

`replace_all_multiple` repeats `replace_all` and compares slots to see that a pass has
changed nothing.  Every pass grows the arena, so this rests on each tree having one slot
and on a pass depending on the structure of its target only.
-/

namespace Slots

/-- What `replace_all_multiple` throws. -/
inductive RewriteError where
  /-- An exception of `replace_all`. -/
  | thrown (error : MatchError)
  | runtimeError (message : Text)
  deriving Repr, DecidableEq

/-- The text of the exception when the passes are used up. -/
def exceededMaxIterations : Text :=
  ("pattern_core::replace_all_multiple: exceeded max_iterations without converging - the " ++
    "rule set may not terminate").toList

section Algorithms

variable [StringHash] (table : Snapshot) (rule : Rule)

/-- `replace_all_multiple`; the number counts the iterations that are left. -/
def replaceAllMultiple :
    ℕ → AtomStore → ℕ → Except RewriteError (ℕ × AtomStore)
  | 0, _, _ => .error (.runtimeError exceededMaxIterations)
  | remaining + 1, store, current =>
      match replaceAll table rule store current with
      | .error error => .error (.thrown error)
      | .ok (next, grown) =>
          if AtomStore.sameSlot next current then
            .ok (next, grown)
          else
            replaceAllMultiple remaining grown next

/-- `t`, `replace_all(t)`, `replace_all(replace_all(t))` and so on, each with its arena. -/
def rewritePasses (store : AtomStore) (target : ℕ) : ℕ → Step :=
  passes (fun current => replaceAll table rule current.2 current.1) (target, store)

/-- The pass after some passes leaves its input unchanged. -/
def PassUnchanged (store : AtomStore) (target count : ℕ) : Prop :=
  ∃ slot before after,
    rewritePasses table rule store target count = .ok (slot, before) ∧
      rewritePasses table rule store target (count + 1) = .ok (slot, after)

end Algorithms

section Delivers

variable [StringHash] {table : Snapshot} {rule : Rule} {store : AtomStore} {target : ℕ}

/-- The loop, told by the passes. -/
theorem replaceAllMultiple_eq (maxIterations : ℕ) :
    replaceAllMultiple table rule maxIterations store target =
      match
        converge (fun current : ℕ × AtomStore => replaceAll table rule current.2 current.1)
          (fun current next => AtomStore.sameSlot next.1 current.1) maxIterations
          (target, store) with
      | .error error => .error (.thrown error)
      | .ok none => .error (.runtimeError exceededMaxIterations)
      | .ok (some result) => .ok result := by
  induction maxIterations generalizing store target with
  | zero =>
      rfl
  | succ remaining inductionHypothesis =>
      rw [replaceAllMultiple, converge]
      cases replaceAll table rule store target with
      | error error =>
          rfl
      | ok result =>
          obtain ⟨next, grown⟩ := result
          by_cases same : AtomStore.sameSlot next target = true
          · simp only [same, if_true]
          · simp only [same, if_false, inductionHypothesis, Bool.false_eq_true]

/-- A pass settles when it returns the slot it was given. -/
theorem settles_iff {count : ℕ} :
    Settles (fun current : ℕ × AtomStore => replaceAll table rule current.2 current.1)
        (fun current next => AtomStore.sameSlot next.1 current.1) (target, store) count ↔
      PassUnchanged table rule store target count := by
  constructor
  · rintro ⟨⟨slot, before⟩, ⟨next, after⟩, reached, last, same⟩
    have sameSlots : next = slot := beq_iff_eq.mp same
    subst sameSlots
    refine ⟨next, before, after, reached, ?_⟩
    rw [rewritePasses, passes, reached]
    exact last
  · rintro ⟨slot, before, after, reached, last⟩
    refine ⟨(slot, before), (slot, after), reached, ?_, beq_self_eq_true slot⟩
    rw [rewritePasses, passes, show passes _ _ count = _ from reached] at last
    exact last

/-- Every pass keeps the arena and returns one of its slots. -/
theorem rewritePasses_built
    (invariant : store.Invariant)
    (inside : target < store.nodes.length)
    {count : ℕ}
    {result : ℕ × AtomStore}
    (reached : rewritePasses table rule store target count = .ok result) :
    result.2.Invariant ∧ result.1 < result.2.nodes.length := by
  induction count generalizing result with
  | zero =>
      cases reached
      exact ⟨invariant, inside⟩
  | succ count inductionHypothesis =>
      rw [rewritePasses, passes] at reached
      cases previous :
          passes (fun current : ℕ × AtomStore => replaceAll table rule current.2 current.1)
            (target, store) count with
      | error error =>
          rw [previous] at reached
          cases reached
      | ok current =>
          rw [previous] at reached
          have last : replaceAll table rule current.2 current.1 = .ok result := reached
          obtain ⟨currentInvariant, currentInside⟩ := inductionHypothesis previous
          have follows := replaceAll_follows table rule currentInvariant currentInside
          rw [last] at follows
          obtain ⟨tree, -, built⟩ := follows.ok_of
          exact ⟨built.invariant, built.inside⟩

/-- A slot that a pass has left unchanged is left unchanged in every later arena. -/
theorem replaceAll_stable
    {before after later : AtomStore}
    {slot : ℕ}
    (invariant : before.Invariant)
    (inside : slot < before.nodes.length)
    (unchanged : replaceAll table rule before slot = .ok (slot, after))
    (laterInvariant : later.Invariant)
    (growth : Extends after later) :
    ∃ grown, replaceAll table rule later slot = .ok (slot, grown) := by
  have follows := replaceAll_follows table rule invariant inside
  rw [unchanged] at follows
  obtain ⟨tree, rewritten, built⟩ := follows.ok_of
  -- The pass on the tree gives the tree back.
  have fixed : tree = before.tree slot := by
    rw [← built.tree_eq]
    exact built.growth.tree invariant.wellFormed built.invariant.wellFormed inside
  have laterTree : later.tree slot = before.tree slot :=
    (built.growth.trans growth).tree invariant.wellFormed laterInvariant.wellFormed inside
  have laterInside : slot < later.nodes.length := growth.inside built.inside
  have again := replaceAll_follows table rule laterInvariant laterInside
  rw [laterTree, rewritten] at again
  obtain ⟨⟨next, grown⟩, returned, againBuilt⟩ := again.of_ok
  refine ⟨grown, ?_⟩
  rw [returned]
  have sameSlot : next = slot := by
    apply againBuilt.invariant.tree_injective againBuilt.inside
      (againBuilt.growth.inside laterInside)
    rw [againBuilt.tree_eq, againBuilt.growth.tree laterInvariant.wellFormed
      againBuilt.invariant.wellFormed laterInside, laterTree, fixed]
  rw [sameSlot]

variable (table rule)

/-- `r` is where the passes first stay, and a later `replace_all` returns it again. -/
structure FirstFixedPoint
    (store : AtomStore)
    (target maxIterations : ℕ)
    (result : ℕ × AtomStore) : Prop where
  first :
    ∃ count < maxIterations,
      (∃ before, rewritePasses table rule store target count = .ok (result.1, before)) ∧
      rewritePasses table rule store target (count + 1) = .ok result ∧
      ∀ earlier < count, ¬ PassUnchanged table rule store target earlier
  stable :
    ∀ between,
      EveryStep step Legal result.2 between →
      ∃ grown,
        replaceAll table rule (run step result.2 between) result.1 = .ok (result.1, grown)

/--
What `replace_all_multiple` returns is the first fixed point of `replace_all` within the
allowed passes; when no pass throws, it throws exactly when all of them change something.
-/
theorem replaceAllMultiple_firstFixedPoint
    (reachable : store.Reachable)
    (inside : target < store.nodes.length)
    (maxIterations : ℕ) :
    (∀ result,
      replaceAllMultiple table rule maxIterations store target = .ok result →
      FirstFixedPoint table rule store target maxIterations result) ∧
    ((∀ count ≤ maxIterations,
        ∃ result, rewritePasses table rule store target count = .ok result) →
      (replaceAllMultiple table rule maxIterations store target =
          .error (.runtimeError exceededMaxIterations) ↔
        ∀ count < maxIterations, ¬ PassUnchanged table rule store target count)) := by
  rw [replaceAllMultiple_eq]
  refine ⟨fun result returned => ?_, fun succeed => ?_⟩
  · split at returned
    · cases returned
    · cases returned
    · rename_i converged
      cases returned
      obtain ⟨count, below, ⟨⟨slot, before⟩, reached, last, same⟩, none⟩ :=
        converge_eq_some converged
      obtain ⟨next, after⟩ := result
      have sameSlots : next = slot := beq_iff_eq.mp same
      subst sameSlots
      obtain ⟨beforeInvariant, beforeInside⟩ :=
        rewritePasses_built reachable.invariant inside reached
      refine ⟨⟨count, below, ⟨before, reached⟩, ?_, ?_⟩, ?_⟩
      · rw [rewritePasses, passes, reached]
        exact last
      · intro earlier isEarlier settled
        exact none earlier isEarlier (settles_iff.mpr settled)
      · intro between legal
        obtain ⟨afterInvariant, -⟩ := rewritePasses_built reachable.invariant inside
          (show rewritePasses table rule store target (count + 1) = .ok (next, after) by
            rw [rewritePasses, passes, reached]
            exact last)
        obtain ⟨laterInvariant, growth⟩ := run_preserves afterInvariant legal
        exact replaceAll_stable beforeInvariant beforeInside last laterInvariant growth
  · have exhausted := @converge_eq_none_iff _ _ _
      (fun current next => AtomStore.sameSlot next.1 current.1) _ _ succeed
    simp only [settles_iff] at exhausted
    rw [← exhausted]
    generalize converge _ _ maxIterations (target, store) = outcome
    rcases outcome with error | (_ | result) <;> simp

omit [StringHash] in
/-- `y * y` becomes `y^2`, and the second pass changes nothing. -/
theorem replaceAllMultiple_square :
    let constant : StringHash := ⟨fun _ => 0⟩
    let store := run (@step constant) .empty [.var ⟨0⟩, .mul [0, 0]]
    ∃ result,
      @replaceAllMultiple constant squareTable squareRule 2 store 1 = .ok result ∧
        @FirstFixedPoint constant squareTable squareRule store 1 2 result := by
  intro constant store
  have reachable : store.Reachable := by
    refine ⟨_, ?_, rfl⟩
    simp only [Transition.everyStep_cons]
    refine ⟨?_, ?_, Transition.everyStep_nil⟩
    · decide
    · decide +kernel
  have inside : 1 < store.nodes.length := by
    decide +kernel
  have returns : (replaceAllMultiple squareTable squareRule 2 store 1).isOk = true := by
    decide +kernel
  cases returned : replaceAllMultiple squareTable squareRule 2 store 1 with
  | error error =>
      rw [returned] at returns
      cases returns
  | ok result =>
      exact ⟨result, rfl,
        (replaceAllMultiple_firstFixedPoint squareTable squareRule reachable inside 2).1
          result returned⟩

end Delivers

end Slots

end PatternCore
