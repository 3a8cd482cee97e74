import Mathlib.Algebra.Order.BigOperators.Group.Finset
import Stocas.Library.WorkerCrash
import Stocas.Pattern.ParallelRewrite

namespace PatternCore

open AtomCore (AtomStore StringHash)
open AtomCore.AtomStore (invariant_empty)
open SymbolTable (Snapshot)
open WorkerPool (AllEnd Blocked Crashes Ends run_blocked start start_blocked step)

/-!
# Rewriting that throws

A worker has no handler, so what `replace_all` throws for a term leaves the function of a
thread.  Whichever worker owns the term, it never gets past it: no schedule returns, and
every schedule that gives the workers enough steps terminates the process.
-/

section Failures

variable [StringHash] {table : Snapshot} {rule : Rule}

/-- Sequential `replace_all` throws for the term. -/
def Throws (table : Snapshot) (rule : Rule) (term : AtomView) : Prop :=
  ∃ error, Slots.replaceAll table rule term.store term.index = .error error

/-- What the caller of `parallel_replace_all` sees. -/
inductive CallOutcome where
  | pending
  | processEnds
  | returns (results : List ParallelRewriteResult)
  | throws (error : MatchError)

/-- The caller's view; `parallel_replace_all` has no path on which it throws itself. -/
def Outcome.observed : Outcome → CallOutcome
  | .running => .pending
  | .terminated => .processEnds
  | .returned results => .returns results

/-- A schedule that gives every worker the steps of its chunk. -/
def Complete (size numThreads : ℕ) (schedule : List ℕ) : Prop :=
  ∀ worker < workerCount size numThreads, 2 * chunkSize size numThreads ≤ schedule.count worker

/--
A failure is reported: when sequential `replace_all` throws for a term, no schedule ends the
process, and the caller gets an exception once all workers have had their steps.
-/
def ReportsFailures
    (table : Snapshot)
    (rule : Rule)
    (terms : List AtomView)
    (numThreads : ℕ) : Prop :=
  (∃ term ∈ terms, Throws table rule term) →
    ∀ schedule,
      (parallelReplaceAll table rule terms numThreads schedule).observed ≠ .processEnds ∧
        (Complete terms.length numThreads schedule →
          ∃ error,
            (parallelReplaceAll table rule terms numThreads schedule).observed =
              .throws error)

/-- `rewrite_one` throws what the store of the term throws. -/
theorem rewriteOne_throws
    {term : AtomView}
    (valid : term.Valid)
    (throws : Throws table rule term) :
    ∃ error, rewriteOne table rule term = .error error := by
  obtain ⟨error, thrown⟩ := throws
  have inStore := Slots.replaceAll_follows table rule valid.invariant valid.inside
  rw [thrown] at inStore
  have copied := cloneInto_built invariant_empty valid
  have inCopy := Slots.replaceAll_follows table rule copied.invariant copied.inside
  rw [copied.tree_eq, AtomView.tree] at inCopy
  generalize replaceAll table rule (term.store.tree term.index) = rewritten
    at inStore inCopy
  cases inStore
  have localThrown :
      Slots.replaceAll table rule (cloneInto .empty term).2 (cloneInto .empty term).1 =
        .error error := by
    generalize Slots.replaceAll table rule (cloneInto .empty term).2
      (cloneInto .empty term).1 = inLocal at inCopy ⊢
    cases inCopy
    rfl
  refine ⟨error, ?_⟩
  rw [rewriteOne]
  exact congrArg (· >>= _) localThrown

/-- The steps of the loop body on an index: one if it throws, else two. -/
def rewriteCost (table : Snapshot) (rule : Rule) (terms : List AtomView) (index : ℕ) : ℕ :=
  match (rewriteJob table rule terms).advance index none with
  | .proceed _ => 2
  | _ => 1

/-- The loop body ends on every index. -/
theorem rewriteJob_ends
    (terms : List AtomView)
    (size : ℕ) :
    AllEnd (rewriteJob table rule terms) (rewriteCost table rule terms) size := by
  intro index _
  have delivers (result : ParallelRewriteResult) :
      (rewriteJob table rule terms).advance index (some result) = .deliver result :=
    rfl
  have start_eq : (rewriteJob table rule terms).initial = none := rfl
  rw [start_eq, rewriteCost]
  cases first : (rewriteJob table rule terms).advance index none with
  | deliver output =>
      exact .deliver first
  | crash =>
      exact .crash first
  | proceed next =>
      cases next with
      | none =>
          simp only [rewriteJob] at first
          split at first
          · cases first
          · cases first
          · split at first
            · cases first
            · cases first
      | some result =>
          exact .proceed first (.deliver (delivers result))

/-- The loop body crashes on a term that throws. -/
theorem rewriteJob_crashes
    {terms : List AtomView}
    {index : ℕ}
    {term : AtomView}
    (isTerm : terms[index]? = some term)
    (valid : term.Valid)
    (throws : Throws table rule term) :
    Crashes (rewriteJob table rule terms) index (rewriteJob table rule terms).initial := by
  obtain ⟨error, thrown⟩ := rewriteOne_throws valid throws
  refine .crash ?_
  simp only [rewriteJob, isTerm, thrown]

/-- No worker has more than two steps for each index of a chunk. -/
theorem rewriteCost_effort_le
    {terms : List AtomView}
    {size numThreads : ℕ}
    {range : WorkerPool.IndexRange}
    (member : range ∈ chunks size numThreads) :
    WorkerPool.effort (rewriteCost table rule terms) range ≤
      2 * chunkSize size numThreads := by
  have twice : ∀ index, rewriteCost table rule terms index ≤ 2 := by
    intro index
    unfold rewriteCost
    split <;> decide
  have fewer :
      WorkerPool.effort (rewriteCost table rule terms) range ≤
        WorkerPool.effort (fun _ => 2) range :=
    Finset.sum_le_sum fun index _ => twice index
  exact fewer.trans (effort_le member)

/-- When a term throws, no schedule returns, and a complete one terminates the process. -/
theorem parallelReplaceAll_throws
    {terms : List AtomView}
    {term : AtomView}
    (member : term ∈ terms)
    (valid : term.Valid)
    (throws : Throws table rule term)
    (numThreads : ℕ)
    (schedule : List ℕ) :
    (∀ results,
      parallelReplaceAll table rule terms numThreads schedule ≠ .returned results) ∧
      (Complete terms.length numThreads schedule →
        parallelReplaceAll table rule terms numThreads schedule = .terminated) := by
  obtain ⟨index, isTerm⟩ := List.mem_iff_getElem?.mp member
  have inside : index < terms.length := (List.getElem?_eq_some_iff.mp isTerm).1
  have nonempty : terms ≠ [] := List.ne_nil_of_mem member
  have inBounds : ∀ range ∈ chunks terms.length numThreads, range.2 ≤ terms.length :=
    fun range member => (chunk_bounds member).1
  have allEnd :
      AllEnd (rewriteJob table rule terms) (rewriteCost table rule terms) terms.length :=
    rewriteJob_ends terms terms.length
  have crashes := rewriteJob_crashes isTerm valid throws
  obtain ⟨range, rangeMember, lower, upper⟩ := chunks_cover inside numThreads
  have started :=
    start_blocked allEnd inBounds (List.replicate terms.length ⟨none, none⟩)
  have ran := run_blocked allEnd inBounds started schedule
  rw [parallelReplaceAll, if_neg nonempty]
  simp only
  generalize Transition.run _ _ schedule = pool at ran ⊢
  rcases ran with terminated | blocked
  · rw [if_pos terminated]
    refine ⟨fun results same => ?_, fun _ => rfl⟩
    cases same
  · obtain ⟨place, placeInside, stepsLeft, notFinished⟩ :=
      blocked.not_finished rangeMember lower upper crashes
    rw [blocked.running, if_neg Bool.false_ne_true, if_neg notFinished]
    refine ⟨fun results same => (by cases same), fun complete => ?_⟩
    have isWorker := placeInside.trans_le (length_chunks_le terms.length numThreads)
    have enough := complete place isWorker
    have few :
        WorkerPool.effort (rewriteCost table rule terms)
            (chunks terms.length numThreads)[place] ≤
          2 * chunkSize terms.length numThreads :=
      rewriteCost_effort_le (List.getElem_mem placeInside)
    rw [List.getD_eq_getElem?_getD, List.getElem?_map, List.getElem?_eq_getElem placeInside,
      Option.map_some, Option.getD_some] at stepsLeft
    exact absurd (few.trans enough) (Nat.not_le.mpr (Nat.lt_of_sub_pos stepsLeft))

omit [StringHash] in
/-- There are complete schedules. -/
theorem exists_complete (size numThreads : ℕ) :
    ∃ schedule, Complete size numThreads schedule := by
  refine ⟨(List.range (workerCount size numThreads)).flatMap fun worker =>
    List.replicate (2 * chunkSize size numThreads) worker, ?_⟩
  intro worker inside
  have turns :
      (List.replicate (2 * chunkSize size numThreads) worker).Sublist
        ((List.range (workerCount size numThreads)).map fun worker =>
          List.replicate (2 * chunkSize size numThreads) worker).flatten :=
    List.sublist_flatten_of_mem (List.mem_map_of_mem (List.mem_range.mpr inside))
  have counted := turns.count_le worker
  rwa [List.count_replicate_self, ← List.flatMap_def] at counted

/--
A failure is reported exactly when there is none: the process is terminated whenever
sequential `replace_all` throws for a term.
-/
theorem parallelReplaceAll_reportsFailures_iff
    (table : Snapshot)
    (rule : Rule)
    {terms : List AtomView}
    (valid : ∀ term ∈ terms, term.Valid)
    (numThreads : ℕ) :
    (ReportsFailures table rule terms numThreads ↔ ∀ term ∈ terms, ¬Throws table rule term) ∧
      ((∃ term ∈ terms, Throws table rule term) →
        ∀ schedule,
          (∀ results,
            parallelReplaceAll table rule terms numThreads schedule ≠ .returned results) ∧
          (Complete terms.length numThreads schedule →
            parallelReplaceAll table rule terms numThreads schedule = .terminated)) := by
  refine ⟨⟨?_, ?_⟩, ?_⟩
  · intro reports term member throws
    obtain ⟨schedule, complete⟩ := exists_complete terms.length numThreads
    have ends :=
      (parallelReplaceAll_throws member (valid term member) throws numThreads schedule).2
        complete
    apply (reports ⟨term, member, throws⟩ schedule).1
    rw [ends]
    rfl
  · rintro none ⟨term, member, throws⟩
    exact absurd throws (none term member)
  · rintro ⟨term, member, throws⟩ schedule
    exact parallelReplaceAll_throws member (valid term member) throws numThreads schedule

end Failures

/-- `y -> x_`, where nothing binds the wildcard. -/
def unboundRule : Rule where
  pattern := .var ⟨0⟩
  replacement := .var ⟨1⟩
  guard := none

/-- The variable `y`, in a store with `y` and `y * y`. -/
def variableView : AtomView := ⟨squareStore, 0⟩

theorem valid_variableView : @AtomView.Valid ⟨fun _ => 0⟩ variableView :=
  @AtomView.Valid.mk ⟨fun _ => 0⟩ _ invariant_squareStore (by decide +kernel)

/-- The replacement of `y` throws. -/
theorem throws_variableView :
    @Throws ⟨fun _ => 0⟩ squareTable unboundRule variableView := by
  have rewritten :
      replaceAll squareTable unboundRule variableView.tree =
        .error (unboundWildcard squareTable ⟨1⟩) := by
    decide +kernel
  have follows :=
    @Slots.replaceAll_follows ⟨fun _ => 0⟩ squareTable unboundRule _ invariant_squareStore
      0 (by decide +kernel)
  have sameTree : squareStore.tree 0 = variableView.tree := rfl
  rw [sameTree, rewritten] at follows
  have thrown := follows
  generalize isRun :
    @Slots.replaceAll ⟨fun _ => 0⟩ squareTable unboundRule squareStore 0 = run at thrown
  cases thrown
  exact ⟨_, isRun⟩

/-- `y`, rewritten by a rule that throws for it. -/
theorem parallelReplaceAll_unbound :
    (@ReportsFailures ⟨fun _ => 0⟩ squareTable unboundRule [variableView] 1 ↔
        ∀ term ∈ [variableView], ¬@Throws ⟨fun _ => 0⟩ squareTable unboundRule term) ∧
      ((∃ term ∈ [variableView], @Throws ⟨fun _ => 0⟩ squareTable unboundRule term) →
        ∀ schedule,
          (∀ results,
            @parallelReplaceAll ⟨fun _ => 0⟩ squareTable unboundRule [variableView] 1
                schedule ≠ .returned results) ∧
          (Complete [variableView].length 1 schedule →
            @parallelReplaceAll ⟨fun _ => 0⟩ squareTable unboundRule [variableView] 1
              schedule = .terminated)) := by
  refine @parallelReplaceAll_reportsFailures_iff ⟨fun _ => 0⟩ squareTable unboundRule
    [variableView] ?_ 1
  intro term member
  rw [List.mem_singleton.mp member]
  exact valid_variableView

/-- The failure for `y` is not reported: one worker with two steps ends the process. -/
theorem parallelReplaceAll_terminated :
    ¬@ReportsFailures ⟨fun _ => 0⟩ squareTable unboundRule [variableView] 1 := by
  intro reports
  have isMember : variableView ∈ [variableView] := List.mem_singleton_self _
  have ends :=
    (@parallelReplaceAll_throws ⟨fun _ => 0⟩ squareTable unboundRule [variableView]
      variableView isMember valid_variableView throws_variableView 1 [0, 0]).2
      (by unfold Complete; decide)
  apply (reports ⟨variableView, isMember, throws_variableView⟩ [0, 0]).1
  rw [ends]
  rfl

end PatternCore
