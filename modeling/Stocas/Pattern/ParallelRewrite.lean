import Stocas.Library.WorkerPool
import Stocas.Pattern.RewriteValue
import Stocas.Pattern.SlotRewrite

namespace PatternCore

open AtomCore (AtomStore AtomTree StringHash)
open AtomCore.AtomStore (Built BuiltAll Extends builtAll_nil child_inside child_lt
  children_of_pow invariant_empty num_built tree_eq_byTag var_built)
open RelatedOutcomes (Related)
open SymbolTable (Snapshot)
open WorkerPool (Finishes Follows IndexRange Job Pool Works run_follows start start_follows
  step)

/-!
# Parallel rewriting

Every term is copied into a store of its own and rewritten there.  The terms are split
into contiguous chunks, one for each worker.  The copy has the structure of the term,
and a rewritten tree depends on the structure only, so whichever way the workers
interleave each term gets the result that it has in its own store.
-/

/-- `AtomView`: a slot of a store. -/
structure AtomView where
  store : AtomStore
  index : ℕ

namespace AtomView

/-- The structure of what is viewed. -/
def tree (view : AtomView) : AtomTree :=
  view.store.tree view.index

/-- `operator==`, on views of any two stores. -/
def equals (view other : AtomView) : Bool :=
  AtomStore.compareFuel (view.index + 1) view.store view.index other.store other.index == .eq

/-- A view of a node that the store has. -/
structure Valid [StringHash] (view : AtomView) : Prop where
  invariant : view.store.Invariant
  inside : view.index < view.store.nodes.length

/-- Views are equal when their structures are. -/
theorem equals_iff
    [StringHash]
    {view other : AtomView}
    (valid : view.Valid)
    (otherValid : other.Valid) :
    view.equals other = true ↔ view.tree = other.tree := by
  rw [equals, beq_iff_eq, AtomStore.compareFuel_eq valid.invariant.wellFormed
    otherValid.invariant.wellFormed (Nat.lt_succ_self _) valid.inside otherValid.inside]
  exact AtomTree.compare_eq_iff

end AtomView

/-- `ParallelRewriteResult`; both fields are empty in a new list of results. -/
structure ParallelRewriteResult where
  store : Option AtomStore
  result : Option ℕ

section Algorithms

variable [StringHash]

/-- The loop of `clone_into` over the children. -/
def cloneChildren
    (cloneChild : AtomStore → ℕ → ℕ × AtomStore) :
    AtomStore → List ℕ → List ℕ × AtomStore
  | store, [] => ([], store)
  | store, child :: rest =>
      let (first, store) := cloneChild store child
      let (later, store) := cloneChildren cloneChild store rest
      (first :: later, store)

/-- `clone_into`, with fuel for the depth of the recursion. -/
def cloneFuel (source : AtomStore) : ℕ → AtomStore → ℕ → ℕ × AtomStore
  | 0, store, node => (node, store)
  | fuel + 1, store, node =>
      match source.tag node with
      | .num => store.num (source.asNum node)
      | .var => store.var (source.symbolOf node)
      | .pow =>
          let (base, store) := cloneFuel source fuel store ((source.children node).getD 0 0)
          let (exponent, store) :=
            cloneFuel source fuel store ((source.children node).getD 1 0)
          store.pow base exponent
      | .add =>
          let (children, store) :=
            cloneChildren (cloneFuel source fuel) store (source.children node)
          store.add children
      | .mul =>
          let (children, store) :=
            cloneChildren (cloneFuel source fuel) store (source.children node)
          store.mul children
      | .func =>
          let (children, store) :=
            cloneChildren (cloneFuel source fuel) store (source.children node)
          store.func (source.symbolOf node) children

/-- `clone_into`; children come before their node, so its slot is fuel enough. -/
def cloneInto (store : AtomStore) (node : AtomView) : ℕ × AtomStore :=
  cloneFuel node.store (node.index + 1) store node.index

variable (table : Snapshot) (rule : Rule)

/-- `rewrite_one`. -/
def rewriteOne (term : AtomView) : Except MatchError ParallelRewriteResult := do
  let (localTerm, store) := cloneInto .empty term
  let (result, store) ← Slots.replaceAll table rule store localTerm
  .ok ⟨some store, some result⟩

/--
The body of a worker's loop.  `rewrite_one` reads the rule and the term and writes to a
store of its own; the assignment to `results[i]` is a step for itself.  An exception that
leaves the function of a thread terminates the process.
-/
def rewriteJob (terms : List AtomView) :
    Job (Option ParallelRewriteResult) ParallelRewriteResult where
  initial := none
  advance := fun index rewritten =>
    match rewritten, terms[index]? with
    | some result, _ => .deliver result
    | none, none => .crash
    | none, some term =>
        match rewriteOne table rule term with
        | .ok result => .proceed (some result)
        | .error _ => .crash

/-- `worker_count`, where `static_cast<unsigned int>` keeps 32 bits of the size. -/
def workerCount (size numThreads : ℕ) : ℕ :=
  max 1 (min numThreads (size % 2 ^ 32))

/-- `chunk_size`. -/
def chunkSize (size numThreads : ℕ) : ℕ :=
  (size + workerCount size numThreads - 1) / workerCount size numThreads

/-- `begin` and `end` of a worker. -/
def chunk (size numThreads worker : ℕ) : IndexRange :=
  (worker * chunkSize size numThreads,
    min size (worker * chunkSize size numThreads + chunkSize size numThreads))

/-- The chunks of the workers that are started. -/
def chunks (size numThreads : ℕ) : List IndexRange :=
  ((List.range (workerCount size numThreads)).map (chunk size numThreads)).filter
    fun range => range.1 < range.2

/-- What a schedule of the workers has led to. -/
inductive Outcome where
  | running
  | terminated
  | returned (results : List ParallelRewriteResult)

/-- `parallel_replace_all`, under a schedule of the workers. -/
def parallelReplaceAll
    (terms : List AtomView)
    (numThreads : ℕ)
    (schedule : List ℕ) :
    Outcome :=
  let results := List.replicate terms.length ⟨none, none⟩
  if terms = [] then
    .returned results
  else
    let job := rewriteJob table rule terms
    let pool :=
      Transition.run (step job) (start job results (chunks terms.length numThreads)) schedule
    if pool.terminated then
      .terminated
    else if pool.Finished then
      .returned pool.results
    else
      .running

end Algorithms

section Copy

variable [StringHash]

/-- Slots of the source below a bound are copied with their structure. -/
def Copies
    (source : AtomStore)
    (cloneChild : AtomStore → ℕ → ℕ × AtomStore)
    (bound : ℕ) : Prop :=
  ∀ {store : AtomStore} {child : ℕ},
    store.Invariant →
    child < source.nodes.length →
    child < bound →
    Built store (cloneChild store child) (source.tree child)

/-- The loop over the children copies them. -/
theorem cloneChildren_built
    {source : AtomStore}
    {cloneChild : AtomStore → ℕ → ℕ × AtomStore}
    {bound : ℕ}
    (copies : Copies source cloneChild bound)
    {store : AtomStore}
    (invariant : store.Invariant)
    {children : List ℕ}
    (inside : ∀ child ∈ children, child < source.nodes.length)
    (inBound : ∀ child ∈ children, child < bound) :
    BuiltAll store (cloneChildren cloneChild store children) (children.map source.tree) := by
  induction children generalizing store with
  | nil =>
      exact builtAll_nil invariant
  | cons child rest inductionHypothesis =>
      obtain ⟨childInside, restInside⟩ := List.forall_mem_cons.mp inside
      obtain ⟨childBound, restBound⟩ := List.forall_mem_cons.mp inBound
      have first := copies invariant childInside childBound
      exact first.cons (inductionHypothesis first.invariant restInside restBound)

/-- With fuel for its depth, `clone_into` copies the structure of a node. -/
theorem cloneFuel_built
    {source : AtomStore}
    (sourceInvariant : source.Invariant)
    (fuel : ℕ) :
    Copies source (cloneFuel source fuel) fuel := by
  induction fuel with
  | zero =>
      intro store node _ _ isZero
      exact absurd isZero (Nat.not_lt_zero node)
  | succ fuel inductionHypothesis =>
      intro store node invariant inside enough
      have wellFormed := sourceInvariant.wellFormed
      have upTo : node ≤ fuel := Nat.le_of_lt_succ enough
      have childInside : ∀ child ∈ source.children node, child < source.nodes.length :=
        fun child member => child_inside wellFormed inside member
      have childBound : ∀ child ∈ source.children node, child < fuel :=
        fun child member => (child_lt wellFormed inside member).trans_le upTo
      have copied := cloneChildren_built inductionHypothesis invariant childInside childBound
      have canonical := sourceInvariant.canonical node inside
      rw [tree_eq_byTag wellFormed inside] at canonical ⊢
      rw [cloneFuel]
      cases kind : source.tag node with
      | num =>
          exact num_built invariant _
      | var =>
          exact var_built invariant _
      | add =>
          simp only [kind] at canonical
          have sumBuilt := copied.add
          rwa [AtomTree.mkAdd_children canonical] at sumBuilt
      | mul =>
          simp only [kind] at canonical
          have productBuilt := copied.mul
          rwa [AtomTree.mkMul_children canonical] at productBuilt
      | pow =>
          obtain ⟨base, exponent, pair, baseBelow, exponentBelow⟩ :=
            children_of_pow wellFormed inside kind
          simp only [pair]
          have baseBuilt := inductionHypothesis invariant (baseBelow.trans inside)
            (baseBelow.trans_le upTo)
          have exponentBuilt := inductionHypothesis baseBuilt.invariant
            (exponentBelow.trans inside) (exponentBelow.trans_le upTo)
          exact baseBuilt.pow exponentBuilt
      | func =>
          exact copied.func _

/-- `clone_into` copies the structure of the term. -/
theorem cloneInto_built
    {store : AtomStore}
    (invariant : store.Invariant)
    {node : AtomView}
    (valid : node.Valid) :
    Built store (cloneInto store node) node.tree :=
  cloneFuel_built valid.invariant (node.index + 1) invariant valid.inside
    (Nat.lt_succ_self node.index)

end Copy

/-- There is a worker at least. -/
theorem workerCount_pos (size numThreads : ℕ) : 0 < workerCount size numThreads :=
  Nat.lt_of_lt_of_le Nat.one_pos (le_max_left _ _)

/-- The chunks together are long enough. -/
theorem le_workerCount_mul_chunkSize (size numThreads : ℕ) :
    size ≤ workerCount size numThreads * chunkSize size numThreads := by
  have positive := workerCount_pos size numThreads
  have above := Nat.lt_mul_div_succ (size + workerCount size numThreads - 1) positive
  rw [← chunkSize, Nat.mul_add, Nat.mul_one] at above
  omega

/-- Each index is in the chunk of exactly one worker. -/
theorem existsUnique_chunk
    {size index : ℕ}
    (inside : index < size)
    (numThreads : ℕ) :
    ∃! worker,
      worker < workerCount size numThreads ∧
        (chunk size numThreads worker).1 ≤ index ∧
        index < (chunk size numThreads worker).2 := by
  have enough := le_workerCount_mul_chunkSize size numThreads
  have positive : 0 < chunkSize size numThreads := by
    by_contra notPositive
    rw [Nat.eq_zero_of_not_pos notPositive, Nat.mul_zero] at enough
    omega
  refine ⟨index / chunkSize size numThreads, ⟨?_, ?_, ?_⟩, ?_⟩
  · exact Nat.div_lt_of_lt_mul ((inside.trans_le enough).trans_eq (Nat.mul_comm _ _))
  · exact Nat.div_mul_le_self index _
  · exact lt_min inside (Nat.lt_div_mul_add positive)
  · rintro worker ⟨-, lower, upper⟩
    have below := upper.trans_le (min_le_right _ _)
    refine (Nat.div_eq_of_lt_le lower ?_).symm
    rwa [Nat.succ_mul]

/-- No more workers are started than are counted. -/
theorem length_chunks_le (size numThreads : ℕ) :
    (chunks size numThreads).length ≤ workerCount size numThreads := by
  have started_le := List.length_filter_le
    (fun range : IndexRange => decide (range.1 < range.2))
    ((List.range (workerCount size numThreads)).map (chunk size numThreads))
  rwa [List.length_map, List.length_range] at started_le

/-- The started workers cover the list. -/
theorem chunks_cover
    {size index : ℕ}
    (inside : index < size)
    (numThreads : ℕ) :
    ∃ range ∈ chunks size numThreads, range.1 ≤ index ∧ index < range.2 := by
  obtain ⟨worker, ⟨isWorker, lower, upper⟩, -⟩ := existsUnique_chunk inside numThreads
  refine ⟨chunk size numThreads worker, ?_, lower, upper⟩
  rw [chunks, List.mem_filter]
  refine ⟨List.mem_map_of_mem (List.mem_range.mpr isWorker), ?_⟩
  exact decide_eq_true (lower.trans_lt upper)

/-- No chunk goes past the list, and none is longer than `chunk_size`. -/
theorem chunk_bounds
    {size numThreads : ℕ}
    {range : IndexRange}
    (member : range ∈ chunks size numThreads) :
    range.2 ≤ size ∧ range.2 - range.1 ≤ chunkSize size numThreads := by
  rw [chunks, List.mem_filter] at member
  obtain ⟨worker, -, rfl⟩ := List.mem_map.mp member.1
  refine ⟨min_le_left _ _, ?_⟩
  rw [chunk, Nat.sub_le_iff_le_add]
  exact (min_le_right _ _).trans_eq (Nat.add_comm _ _)

section Schedules

variable [StringHash] {table : Snapshot} {rule : Rule}

/-- The result is there, and equals what a store of the term gives at any time. -/
def MatchesSequential
    (table : Snapshot)
    (rule : Rule)
    (term : AtomView)
    (result : ParallelRewriteResult) : Prop :=
  ∃ store slot,
    result = ⟨some store, some slot⟩ ∧
      ∀ own : AtomStore,
        own.Invariant →
        Extends term.store own →
        ∃ sequential : ℕ × AtomStore,
          Slots.replaceAll table rule own term.index = .ok sequential ∧
            AtomView.equals ⟨store, slot⟩ ⟨sequential.2, sequential.1⟩ = true

/-- Views of a slot that a step delivers. -/
theorem valid_of_built
    {store : AtomStore}
    {result : ℕ × AtomStore}
    {tree : AtomTree}
    (built : Built store result tree) :
    AtomView.Valid ⟨result.2, result.1⟩ :=
  ⟨built.invariant, built.inside⟩

/-- `rewrite_one` returns what the store of the term gives. -/
theorem rewriteOne_matches
    {term : AtomView}
    (valid : term.Valid)
    {sequential : ℕ × AtomStore}
    (returned : Slots.replaceAll table rule term.store term.index = .ok sequential) :
    ∃ result,
      rewriteOne table rule term = .ok result ∧ MatchesSequential table rule term result := by
  have inStore := Slots.replaceAll_follows table rule valid.invariant valid.inside
  rw [returned] at inStore
  obtain ⟨tree, rewritten, -⟩ := inStore.ok_of
  have copied := cloneInto_built invariant_empty valid
  have inCopy := Slots.replaceAll_follows table rule copied.invariant copied.inside
  rw [copied.tree_eq, AtomView.tree, rewritten] at inCopy
  obtain ⟨result, localReturned, localBuilt⟩ := inCopy.of_ok
  refine ⟨⟨some result.2, some result.1⟩, ?_, result.2, result.1, rfl, ?_⟩
  · rw [rewriteOne]
    exact congrArg (· >>= _) localReturned
  · intro own invariant growth
    have inOwn :=
      Slots.replaceAll_follows table rule invariant (growth.inside valid.inside)
    rw [growth.tree valid.invariant.wellFormed invariant.wellFormed valid.inside,
      rewritten] at inOwn
    obtain ⟨ownResult, ownReturned, ownBuilt⟩ := inOwn.of_ok
    refine ⟨ownResult, ownReturned, ?_⟩
    rw [AtomView.equals_iff (valid_of_built localBuilt) (valid_of_built ownBuilt)]
    exact localBuilt.tree_eq.trans ownBuilt.tree_eq.symm

/-- Whether a store of the term throws depends on the structure of the term. -/
theorem exists_sequential
    {term : AtomView}
    (valid : term.Valid)
    {tree : AtomTree}
    (rewritten : replaceAll table rule term.tree = .ok tree) :
    ∃ sequential, Slots.replaceAll table rule term.store term.index = .ok sequential := by
  have inStore := Slots.replaceAll_follows table rule valid.invariant valid.inside
  rw [← AtomView.tree, rewritten] at inStore
  obtain ⟨sequential, returned, -⟩ := inStore.of_ok
  exact ⟨sequential, returned⟩

/-- Every term has a result when every term has one. -/
theorem exists_rewritten
    {terms : List AtomView}
    (all :
      ∀ term ∈ terms,
        ∃ result,
          rewriteOne table rule term = .ok result ∧
            MatchesSequential table rule term result) :
    ∃ results,
      List.Forall₂ (fun term result => rewriteOne table rule term = .ok result) terms
          results ∧
        List.Forall₂ (MatchesSequential table rule) terms results := by
  induction terms with
  | nil =>
      exact ⟨[], .nil, .nil⟩
  | cons term rest inductionHypothesis =>
      obtain ⟨first, later⟩ := List.forall_mem_cons.mp all
      obtain ⟨result, rewritten, isMatch⟩ := first
      obtain ⟨results, allRewritten, allMatch⟩ := inductionHypothesis later
      exact ⟨result :: results, .cons rewritten allRewritten, .cons isMatch allMatch⟩

/-- The loop body delivers the results, each in two steps. -/
theorem rewriteJob_works
    {terms : List AtomView}
    {results : List ParallelRewriteResult}
    (allRewritten :
      List.Forall₂ (fun term result => rewriteOne table rule term = .ok result) terms
        results) :
    Works (rewriteJob table rule terms) (fun index => results.getD index ⟨none, none⟩)
      (fun _ => 2) terms.length := by
  intro index inside
  have resultInside : index < results.length := by
    rwa [← allRewritten.length_eq]
  have rewritten := allRewritten.get inside resultInside
  have isTerm : terms[index]? = some (terms.get ⟨index, inside⟩) :=
    List.getElem?_eq_getElem inside
  have proceeds :
      (rewriteJob table rule terms).advance index none =
        .proceed (some (results.get ⟨index, resultInside⟩)) := by
    simp only [rewriteJob, isTerm, rewritten]
  have delivered : results.getD index ⟨none, none⟩ = results.get ⟨index, resultInside⟩ :=
    List.getD_eq_getElem _ _ resultInside
  simp only [delivered]
  exact .proceed proceeds (.deliver rfl)

omit [StringHash] in
/-- No worker has more than two steps for each index of a chunk. -/
theorem effort_le
    {size numThreads : ℕ}
    {range : IndexRange}
    (member : range ∈ chunks size numThreads) :
    WorkerPool.effort (fun _ => 2) range ≤ 2 * chunkSize size numThreads := by
  rw [WorkerPool.effort, Finset.sum_const, Nat.card_Ico, nsmul_eq_mul, Nat.cast_id,
    Nat.mul_comm]
  exact Nat.mul_le_mul_left 2 (chunk_bounds member).2

/--
No schedule terminates the process.  What is returned are the sequential results in the
order of the terms, and a schedule that gives every worker enough steps returns.
-/
theorem parallelReplaceAll_sequential
    (table : Snapshot)
    (rule : Rule)
    {terms : List AtomView}
    (valid : ∀ term ∈ terms, term.Valid)
    (noThrow :
      ∀ term ∈ terms,
        ∃ sequential,
          Slots.replaceAll table rule term.store term.index = .ok sequential)
    (numThreads : ℕ)
    (schedule : List ℕ) :
    parallelReplaceAll table rule terms numThreads schedule ≠ .terminated ∧
      (∀ results,
        parallelReplaceAll table rule terms numThreads schedule = .returned results →
        List.Forall₂ (MatchesSequential table rule) terms results) ∧
      ((∀ worker < workerCount terms.length numThreads,
          2 * chunkSize terms.length numThreads ≤ schedule.count worker) →
        ∃ results,
          parallelReplaceAll table rule terms numThreads schedule = .returned results) := by
  obtain ⟨results, allRewritten, allMatch⟩ := exists_rewritten fun term member => by
    obtain ⟨sequential, returned⟩ := noThrow term member
    exact rewriteOne_matches (valid term member) returned
  have inBounds : ∀ range ∈ chunks terms.length numThreads, range.2 ≤ terms.length :=
    fun range member => (chunk_bounds member).1
  have works := rewriteJob_works allRewritten
  have started := @start_follows _ _ _ _ _ _ _ works inBounds
    (List.replicate terms.length ⟨none, none⟩) List.length_replicate
  have follows := run_follows works inBounds started schedule
  rw [parallelReplaceAll]
  by_cases isEmpty : terms = []
  · subst isEmpty
    cases allMatch
    rw [if_pos rfl]
    refine ⟨nofun, ?_, fun _ => ⟨_, rfl⟩⟩
    rintro _ ⟨⟩
    exact .nil
  · simp only [if_neg isEmpty, follows.running, Bool.false_eq_true, if_false]
    generalize Transition.run _ _ schedule = pool at follows ⊢
    refine ⟨?_, ?_, ?_⟩
    · split_ifs <;> exact nofun
    · intro returned isReturned
      split_ifs at isReturned with finished
      cases isReturned
      have inOrder : (List.range terms.length).map
          (fun index => results.getD index ⟨none, none⟩) = results := by
        rw [allRewritten.length_eq]
        exact List.ext_getElem (by simp) (by simp +contextual)
      rw [follows.results_eq (fun index inside => chunks_cover inside numThreads) finished,
        inOrder]
      exact allMatch
    · intro enough
      have finished : pool.Finished := by
        rw [follows.finished_iff]
        intro place inside
        have isWorker := inside.trans_le (length_chunks_le terms.length numThreads)
        rw [List.getD_eq_getElem?_getD, List.getElem?_map, List.getElem?_eq_getElem inside,
          Option.map_some, Option.getD_some, Nat.sub_eq_zero_iff_le]
        exact (effort_le (List.getElem_mem inside)).trans (enough place isWorker)
      exact ⟨pool.results, if_pos finished⟩

/-- A store with `y` and `y * y`, with a hash that puts everything into one bucket. -/
def squareStore : AtomStore :=
  Transition.run (@AtomStore.BuilderCall.step ⟨fun _ => 0⟩) .empty
    [.var ⟨0⟩, .mul [0, 0]]

omit [StringHash] in
/-- `squareStore` was built by legal calls. -/
theorem invariant_squareStore : @AtomStore.Invariant ⟨fun _ => 0⟩ squareStore := by
  refine (@AtomStore.run_preserves ⟨fun _ => 0⟩ _
    (@AtomStore.invariant_empty ⟨fun _ => 0⟩) _ ?_).1
  simp only [Transition.everyStep_cons]
  refine ⟨?_, ?_, Transition.everyStep_nil⟩
  · decide
  · decide +kernel

omit [StringHash] in
/-- `y * y` and `y`, rewritten by two workers that take turns. -/
theorem parallelReplaceAll_square :
    let constant : StringHash := ⟨fun _ => 0⟩
    let terms : List AtomView := [⟨squareStore, 1⟩, ⟨squareStore, 0⟩]
    ∃ results,
      @parallelReplaceAll constant squareTable squareRule terms 8 [1, 0, 0, 1] =
          .returned results ∧
        List.Forall₂ (@MatchesSequential constant squareTable squareRule) terms results := by
  intro constant terms
  have productValid : AtomView.Valid ⟨squareStore, 1⟩ :=
    ⟨invariant_squareStore, by decide +kernel⟩
  have variableValid : AtomView.Valid ⟨squareStore, 0⟩ :=
    ⟨invariant_squareStore, by decide +kernel⟩
  have valid : ∀ term ∈ terms, term.Valid := by
    simp only [terms, List.forall_mem_cons]
    exact ⟨productValid, variableValid, nofun⟩
  have noThrow : ∀ term ∈ terms, ∃ sequential, Slots.replaceAll squareTable squareRule
      term.store term.index = .ok sequential := by
    simp only [terms, List.forall_mem_cons]
    refine ⟨?_, ?_, nofun⟩
    · exact @exists_sequential _ squareTable squareRule _ productValid
        (.pow (.var ⟨0⟩) (.num 2)) (by decide +kernel)
    · exact @exists_sequential _ squareTable squareRule _ variableValid (.var ⟨0⟩)
        (by decide +kernel)
  obtain ⟨-, allMatch, returns⟩ :=
    parallelReplaceAll_sequential squareTable squareRule valid noThrow 8 [1, 0, 0, 1]
  obtain ⟨results, returned⟩ := returns (by decide +kernel)
  exact ⟨results, returned, allMatch results returned⟩

end Schedules

end PatternCore
