import Mathlib.Logic.Function.Basic
import Stocas.Library.Run
import Stocas.SymbolTable.Table

namespace SymbolTable

open Transition (run run_cons run_nil)

/-!
# Interleaved calls of `get_symbol`

Any number of threads call `get_symbol`.  A call loads the published snapshot and
looks the name up in it; when the name is absent it takes the writer lock, loads
again, and publishes a copy with the name appended.  Other threads may step between
any two of these steps, so a snapshot in flight may be stale.
-/

/-- The arguments of one call. -/
structure Request where
  namespaceName : Text
  name : Text
  attributes : List SymbolAttribute
  location : SourceLocation
  deriving Repr, DecidableEq

namespace Request

/-- The qualified name that a call asks for. -/
def qualified (request : Request) : Text :=
  qualify request.namespaceName request.name

/-- The entry that a call appends when its name is new. -/
def entry (request : Request) : Entry where
  qualifiedName := request.qualified
  attributes := request.attributes
  location := request.location

end Request

/-- The copy of a snapshot with one entry appended. -/
def Snapshot.append (snapshot : Snapshot) (entry : Entry) : Snapshot where
  entries := snapshot.entries ++ [entry]
  indexByQualifiedName :=
    (entry.qualifiedName, snapshot.entries.length) :: snapshot.indexByQualifiedName

/-- The program counter of a thread, with its local variables. -/
inductive Stage where
  | idle
  /-- before the load of the fast path -/
  | entered (request : Request)
  /-- before the lookup of the fast path -/
  | reading (request : Request) (snapshot : Snapshot)
  /-- before the writer lock is taken -/
  | waiting (request : Request)
  /-- before the load under the lock -/
  | locked (request : Request)
  /-- before the lookup under the lock -/
  | checking (request : Request) (current : Snapshot)
  /-- before the store of the new snapshot -/
  | publishing (request : Request) (id : Nat) (next : Snapshot)
  /-- before the lock is released -/
  | unlocking (request : Request) (outcome : Except TableError Symbol)

/-- `GlobalTable` with all threads and the calls that returned or threw. -/
structure TableState (Thread : Type) where
  published : Snapshot
  lock : Option Thread
  stage : Thread → Stage
  completed : List (Request × Except TableError Symbol)

/-- A scheduler's choice: a thread calls `get_symbol`, or makes its next step. -/
inductive Action (Thread : Type) where
  | call (thread : Thread) (request : Request)
  | proceed (thread : Thread)

namespace TableState

variable {Thread : Type}

/-- The table before any call. -/
def initial : TableState Thread where
  published := .empty
  lock := none
  stage _ := .idle
  completed := []

variable [DecidableEq Thread]

/-- A thread goes on to another stage. -/
def moves (state : TableState Thread) (thread : Thread) (stage : Stage) :
    TableState Thread :=
  { state with stage := Function.update state.stage thread stage }

/-- A thread's call returns or throws. -/
def completes
    (state : TableState Thread)
    (thread : Thread)
    (request : Request)
    (outcome : Except TableError Symbol) :
    TableState Thread :=
  { state.moves thread .idle with completed := (request, outcome) :: state.completed }

/-- The next step of a thread; a thread that waits for the lock does not move. -/
def proceeds (state : TableState Thread) (thread : Thread) : TableState Thread :=
  match state.stage thread with
  | .idle => state
  | .entered request => state.moves thread (.reading request state.published)
  | .reading request snapshot =>
      match snapshot.indexByQualifiedName.lookup request.qualified with
      | some id =>
          state.completes thread request
            ((snapshot.validate request.qualified id request.attributes).map Symbol.mk)
      | none => state.moves thread (.waiting request)
  | .waiting request =>
      match state.lock with
      | none => { state.moves thread (.locked request) with lock := some thread }
      | some _ => state
  | .locked request => state.moves thread (.checking request state.published)
  | .checking request current =>
      match current.indexByQualifiedName.lookup request.qualified with
      | some id =>
          state.moves thread
            (.unlocking request
              ((current.validate request.qualified id request.attributes).map Symbol.mk))
      | none =>
          state.moves thread
            (.publishing request current.entries.length (current.append request.entry))
  | .publishing request id next =>
      { state.moves thread (.unlocking request (.ok ⟨id⟩)) with published := next }
  | .unlocking request outcome =>
      { state.completes thread request outcome with lock := none }

/-- One step of the interleaving. -/
def step (state : TableState Thread) : Action Thread → TableState Thread
  | .call thread request =>
      match state.stage thread with
      | .idle => state.moves thread (.entered request)
      | _ => state
  | .proceed thread => state.proceeds thread

end TableState

theorem SymbolAttribute.value_injective :
    Function.Injective SymbolAttribute.value := by
  intro left right same
  cases left <;> cases right <;> first | rfl | cases same

/-- The attribute check compares multisets. -/
theorem sameAttributes_iff_perm
    {requested existing : List SymbolAttribute} :
    sameAttributes requested existing = true ↔ requested.Perm existing := by
  simp only [sameAttributes, Bool.and_eq_true, beq_iff_eq]
  constructor
  · intro both
    have sorted := List.perm_insertionSort
      (fun left right : SymbolAttribute => left.value ≤ right.value)
    exact (sorted requested).symm.trans (both.2 ▸ sorted existing)
  · intro reordered
    refine ⟨reordered.length_eq, ?_⟩
    let byValue (left right : SymbolAttribute) : Prop := left.value ≤ right.value
    have total : Std.Total byValue :=
      ⟨fun left right => Nat.le_total left.value right.value⟩
    have transitive : IsTrans SymbolAttribute byValue :=
      ⟨fun _ _ _ first second => Nat.le_trans first second⟩
    have ordered := List.pairwise_insertionSort byValue
    have sorted := List.perm_insertionSort byValue
    apply List.Perm.eq_of_pairwise ?_ (ordered requested) (ordered existing)
    · exact (sorted requested).trans (reordered.trans (sorted existing).symm)
    · intro left right _ _ below above
      exact SymbolAttribute.value_injective (Nat.le_antisymm below above)

/--
A call settled on a snapshot: the name has an entry, and the call returned its
position, or threw when the attributes are others.
-/
structure Settled
    (snapshot : Snapshot)
    (request : Request)
    (outcome : Except TableError Symbol)
    (id : Nat)
    (entry : Entry) :
    Prop where
  found : snapshot.entries[id]? = some entry
  named : entry.qualifiedName = request.qualified
  checked :
    outcome =
      if sameAttributes request.attributes entry.attributes then
        .ok ⟨id⟩
      else
        .error (.logicError (conflictMessage request.qualified entry))

/-- A settled call stays settled while the table grows. -/
theorem Settled.mono
    {snapshot later : Snapshot}
    {request : Request}
    {outcome : Except TableError Symbol}
    {id : Nat}
    {entry : Entry}
    (settled : Settled snapshot request outcome id entry)
    (grows : snapshot.entries <+: later.entries) :
    Settled later request outcome id entry where
  found := by
    obtain ⟨more, appended⟩ := grows
    have inside := (List.getElem?_eq_some_iff.mp settled.found).1
    rw [← appended, List.getElem?_append_left inside]
    exact settled.found
  named := settled.named
  checked := settled.checked

/-- The check of an indexed name settles the call. -/
theorem Snapshot.Consistent.settles
    {snapshot : Snapshot}
    (consistent : snapshot.Consistent)
    {request : Request}
    {id : Nat}
    (indexed : snapshot.indexByQualifiedName.lookup request.qualified = some id) :
    ∃ entry,
      Settled snapshot request
        ((snapshot.validate request.qualified id request.attributes).map Symbol.mk)
        id entry := by
  obtain ⟨entry, found, named⟩ := (consistent request.qualified id).mp indexed
  refine ⟨entry, found, named, ?_⟩
  rw [Snapshot.validate, found]
  dsimp only
  split
  · rfl
  · rfl

/-- A new name settles on its own entry. -/
theorem settled_append
    (snapshot : Snapshot)
    (request : Request) :
    Settled (snapshot.append request.entry) request (.ok ⟨snapshot.entries.length⟩)
      snapshot.entries.length request.entry where
  found := List.getElem?_concat_length
  named := rfl
  checked := by
    have same : sameAttributes request.attributes request.entry.attributes = true :=
      sameAttributes_iff_perm.mpr (List.Perm.refl _)
    rw [if_pos same]

/-- What a thread's local variables say of the table, at every point of a call. -/
def StageHolds
    {Thread : Type}
    (published : Snapshot)
    (lock : Option Thread)
    (thread : Thread) :
    Stage → Prop
  | .idle => lock ≠ some thread
  | .entered _ => lock ≠ some thread
  | .reading _ snapshot =>
      lock ≠ some thread ∧ snapshot.Consistent ∧
        snapshot.entries <+: published.entries
  | .waiting _ => lock ≠ some thread
  | .locked _ => lock = some thread
  | .checking _ current => lock = some thread ∧ current = published
  | .publishing request id next =>
      lock = some thread ∧
        published.indexByQualifiedName.lookup request.qualified = none ∧
        id = published.entries.length ∧ next = published.append request.entry
  | .unlocking request outcome =>
      lock = some thread ∧ ∃ id entry, Settled published request outcome id entry

/--
What another thread does is no concern of a thread: the table may grow unless this
thread holds the lock.
-/
theorem StageHolds.frame
    {Thread : Type}
    {published later : Snapshot}
    {lock after : Option Thread}
    {thread : Thread}
    {stage : Stage}
    (holds : StageHolds published lock thread stage)
    (grows : published.entries <+: later.entries)
    (locked : lock = some thread → after = some thread ∧ later = published)
    (unlocked : lock ≠ some thread → after ≠ some thread) :
    StageHolds later after thread stage := by
  cases stage with
  | idle =>
      exact unlocked holds
  | entered request =>
      exact unlocked holds
  | reading request snapshot =>
      obtain ⟨notHolder, consistent, isPrefix⟩ := holds
      exact ⟨unlocked notHolder, consistent, isPrefix.trans grows⟩
  | waiting request =>
      exact unlocked holds
  | locked request =>
      exact (locked holds).1
  | checking request current =>
      obtain ⟨isHolder, isCurrent⟩ := holds
      obtain ⟨stillHolder, same⟩ := locked isHolder
      exact ⟨stillHolder, same ▸ isCurrent⟩
  | publishing request id next =>
      obtain ⟨isHolder, prepared⟩ := holds
      obtain ⟨stillHolder, same⟩ := locked isHolder
      exact ⟨stillHolder, same ▸ prepared⟩
  | unlocking request outcome =>
      obtain ⟨isHolder, settled⟩ := holds
      obtain ⟨stillHolder, same⟩ := locked isHolder
      exact ⟨stillHolder, same ▸ settled⟩

namespace TableState

variable {Thread : Type}

/-- The index is exact, every thread's variables hold, and every call has settled. -/
structure Invariant (state : TableState Thread) : Prop where
  consistent : state.published.Consistent
  stages : ∀ thread, StageHolds state.published state.lock thread (state.stage thread)
  settled :
    ∀ call ∈ state.completed, ∃ id entry,
      Settled state.published call.1 call.2 id entry

theorem invariant_initial :
    Invariant (initial : TableState Thread) where
  consistent := Snapshot.Reachable.empty.consistent
  stages _ := nofun
  settled := by
    simp [initial]

variable [DecidableEq Thread]

/-- A step of one thread keeps the invariant when it keeps its own part of it. -/
theorem Invariant.update
    {state : TableState Thread}
    (invariant : state.Invariant)
    (thread : Thread)
    {published : Snapshot}
    {lock : Option Thread}
    {stage : Stage}
    {completed : List (Request × Except TableError Symbol)}
    (consistent : published.Consistent)
    (grows : state.published.entries <+: published.entries)
    (holds : StageHolds published lock thread stage)
    (locked :
      ∀ other, other ≠ thread → state.lock = some other →
        lock = some other ∧ published = state.published)
    (unlocked :
      ∀ other, other ≠ thread → state.lock ≠ some other → lock ≠ some other)
    (settled :
      ∀ call ∈ completed, call ∈ state.completed ∨
        ∃ id entry, Settled published call.1 call.2 id entry) :
    Invariant
      { published := published
        lock := lock
        stage := Function.update state.stage thread stage
        completed := completed } where
  consistent := consistent
  stages other := by
    by_cases same : other = thread
    · subst same
      simpa using holds
    · simpa [same] using
        (invariant.stages other).frame grows (locked other same) (unlocked other same)
  settled call member := by
    rcases settled call member with earlier | now
    · obtain ⟨id, entry, before⟩ := invariant.settled call earlier
      exact ⟨id, entry, before.mono grows⟩
    · exact now

/-- A step that only moves a thread on. -/
theorem Invariant.moves
    {state : TableState Thread}
    (invariant : state.Invariant)
    (thread : Thread)
    {stage : Stage}
    (holds : StageHolds state.published state.lock thread stage) :
    (state.moves thread stage).Invariant :=
  invariant.update thread invariant.consistent (List.prefix_refl _) holds
    (fun _ _ isHolder => ⟨isHolder, rfl⟩) (fun _ _ notHolder => notHolder)
    (fun _ member => Or.inl member)

/-- The next step of any thread keeps the invariant. -/
theorem Invariant.proceeds
    {state : TableState Thread}
    (invariant : state.Invariant)
    (thread : Thread) :
    (state.proceeds thread).Invariant := by
  have holds := invariant.stages thread
  cases atStage : state.stage thread with
  | idle =>
      simpa [TableState.proceeds, atStage] using invariant
  | entered request =>
      rw [atStage] at holds
      rw [TableState.proceeds, atStage]
      exact invariant.moves thread
        ⟨holds, invariant.consistent, List.prefix_refl _⟩
  | reading request snapshot =>
      rw [atStage] at holds
      obtain ⟨notHolder, consistent, isPrefix⟩ := holds
      rw [TableState.proceeds, atStage]
      dsimp only
      cases indexed : snapshot.indexByQualifiedName.lookup request.qualified with
      | none =>
          exact invariant.moves thread notHolder
      | some id =>
          obtain ⟨entry, settled⟩ := consistent.settles indexed
          refine invariant.update thread invariant.consistent (List.prefix_refl _)
            notHolder (fun _ _ isHolder => ⟨isHolder, rfl⟩)
            (fun _ _ notOther => notOther) ?_
          intro call member
          rcases List.mem_cons.mp member with rfl | earlier
          · exact Or.inr ⟨id, entry, settled.mono isPrefix⟩
          · exact Or.inl earlier
  | waiting request =>
      rw [atStage] at holds
      rw [TableState.proceeds, atStage]
      dsimp only
      cases isLocked : state.lock with
      | none =>
          refine invariant.update thread invariant.consistent (List.prefix_refl _) rfl
            ?_ ?_ (fun _ member => Or.inl member)
          · intro other _ isHolder
            rw [isLocked] at isHolder
            cases isHolder
          · intro other differs _ isHolder
            exact differs (Option.some.inj isHolder).symm
      | some holder =>
          exact invariant
  | locked request =>
      rw [atStage] at holds
      rw [TableState.proceeds, atStage]
      exact invariant.moves thread ⟨holds, rfl⟩
  | checking request current =>
      rw [atStage] at holds
      obtain ⟨isHolder, rfl⟩ := holds
      rw [TableState.proceeds, atStage]
      dsimp only
      cases indexed :
          state.published.indexByQualifiedName.lookup request.qualified with
      | none =>
          exact invariant.moves thread ⟨isHolder, indexed, rfl, rfl⟩
      | some id =>
          obtain ⟨entry, settled⟩ := invariant.consistent.settles indexed
          exact invariant.moves thread ⟨isHolder, id, entry, settled⟩
  | publishing request id next =>
      rw [atStage] at holds
      obtain ⟨isHolder, fresh, rfl, rfl⟩ := holds
      rw [TableState.proceeds, atStage]
      refine invariant.update thread (invariant.consistent.append request.entry fresh)
        (List.prefix_append _ _)
        ⟨isHolder, _, _, settled_append state.published request⟩ ?_
        (fun _ _ notOther => notOther) (fun _ member => Or.inl member)
      intro other differs otherHolds
      rw [isHolder] at otherHolds
      exact (differs (Option.some.inj otherHolds).symm).elim
  | unlocking request outcome =>
      rw [atStage] at holds
      obtain ⟨isHolder, id, entry, settled⟩ := holds
      rw [TableState.proceeds, atStage]
      refine invariant.update thread invariant.consistent (List.prefix_refl _)
        nofun ?_ (fun _ _ _ => nofun) ?_
      · intro other differs otherHolds
        rw [isHolder] at otherHolds
        exact (differs (Option.some.inj otherHolds).symm).elim
      · intro call member
        rcases List.mem_cons.mp member with rfl | earlier
        · exact Or.inr ⟨id, entry, settled⟩
        · exact Or.inl earlier

/-- Every step keeps the invariant. -/
theorem Invariant.step
    {state : TableState Thread}
    (invariant : state.Invariant)
    (action : Action Thread) :
    (state.step action).Invariant := by
  cases action with
  | call thread request =>
      have holds := invariant.stages thread
      rw [TableState.step]
      split
      · rename_i atStage
        rw [atStage] at holds
        exact invariant.moves thread holds
      · exact invariant
  | proceed thread =>
      exact invariant.proceeds thread

/-- One step of any thread only appends to the table. -/
theorem Invariant.step_grows
    {state : TableState Thread}
    (invariant : state.Invariant)
    (action : Action Thread) :
    state.published.entries <+: (state.step action).published.entries := by
  cases action with
  | call thread request =>
      rw [TableState.step]
      split
      · exact List.prefix_refl _
      · exact List.prefix_refl _
  | proceed thread =>
      rw [TableState.step, TableState.proceeds]
      cases atStage : state.stage thread with
      | idle =>
          exact List.prefix_refl _
      | entered request =>
          exact List.prefix_refl _
      | reading request snapshot =>
          dsimp only
          split
          · exact List.prefix_refl _
          · exact List.prefix_refl _
      | waiting request =>
          dsimp only
          split
          · exact List.prefix_refl _
          · exact List.prefix_refl _
      | locked request =>
          exact List.prefix_refl _
      | checking request current =>
          dsimp only
          split
          · exact List.prefix_refl _
          · exact List.prefix_refl _
      | publishing request id next =>
          have holds := invariant.stages thread
          rw [atStage] at holds
          obtain ⟨-, -, -, rfl⟩ := holds
          exact List.prefix_append _ _
      | unlocking request outcome =>
          exact List.prefix_refl _

/-- A step forgets no call that returned or threw. -/
theorem step_remembers
    (state : TableState Thread)
    (action : Action Thread) :
    state.completed <:+ (state.step action).completed := by
  cases action with
  | call thread request =>
      rw [TableState.step]
      split
      · exact List.suffix_refl _
      · exact List.suffix_refl _
  | proceed thread =>
      rw [TableState.step, TableState.proceeds]
      cases atStage : state.stage thread with
      | reading request snapshot =>
          dsimp only
          split
          · exact List.suffix_cons _ _
          · exact List.suffix_refl _
      | waiting request =>
          dsimp only
          split
          · exact List.suffix_refl _
          · exact List.suffix_refl _
      | checking request current =>
          dsimp only
          split
          · exact List.suffix_refl _
          · exact List.suffix_refl _
      | unlocking request outcome =>
          exact List.suffix_cons _ _
      | _ =>
          exact List.suffix_refl _

/-- The invariant holds after any interleaving. -/
theorem invariant_run
    {state : TableState Thread}
    (invariant : state.Invariant)
    (actions : List (Action Thread)) :
    (run step state actions).Invariant := by
  induction actions generalizing state with
  | nil =>
      exact invariant
  | cons action rest inductionHypothesis =>
      exact inductionHypothesis (invariant.step action)

/--
A call that no other thread interrupts is one call of the sequential table: it
publishes and returns or throws as `getSymbol` does.
-/
theorem run_alone
    {state : TableState Thread}
    {thread : Thread}
    (idle : state.stage thread = .idle)
    (unlocked : state.lock = none)
    (request : Request) :
    let alone :=
      getSymbol state.published request.namespaceName request.name request.attributes
        request.location
    let after :=
      run step state (.call thread request :: List.replicate 7 (.proceed thread))
    after.stage thread = .idle ∧ after.lock = none ∧
      after.completed = (request, alone.map Prod.fst) :: state.completed ∧
      after.published = (alone.toOption.map Prod.snd).getD state.published := by
  cases indexed :
      state.published.indexByQualifiedName.lookup
        (qualify request.namespaceName request.name) with
  | none =>
      simp [run, List.replicate, step, proceeds, moves, completes, idle, unlocked,
        indexed, getSymbol, Snapshot.insertOrValidate, Except.map, Except.toOption,
        Snapshot.append, Request.entry, Request.qualified]
  | some id =>
      cases validated :
          state.published.validate (qualify request.namespaceName request.name) id
            request.attributes with
      | error failure =>
          simp [run, List.replicate, step, proceeds, moves, completes, idle, unlocked,
            indexed, getSymbol, validated, Except.map, Except.toOption,
            Request.qualified]
      | ok found =>
          simp [run, List.replicate, step, proceeds, moves, completes, idle, unlocked,
            indexed, getSymbol, validated, Except.map, Except.toOption,
            Request.qualified]

/-- A table only grows over an interleaving. -/
theorem run_grows
    {state : TableState Thread}
    (invariant : state.Invariant)
    (actions : List (Action Thread)) :
    state.published.entries <+:
      (run step state actions).published.entries := by
  induction actions generalizing state with
  | nil =>
      exact List.prefix_refl _
  | cons action rest inductionHypothesis =>
      exact (invariant.step_grows action).trans
        (inductionHypothesis (invariant.step action))

/-- An interleaving forgets no call that returned or threw. -/
theorem run_remembers
    (state : TableState Thread)
    (actions : List (Action Thread)) :
    state.completed <:+ (run step state actions).completed := by
  induction actions generalizing state with
  | nil =>
      exact List.suffix_refl _
  | cons action rest inductionHypothesis =>
      exact (step_remembers state action).trans (inductionHypothesis _)

end TableState

/-- An exact index gives each name one position. -/
theorem Snapshot.Consistent.position_unique
    {snapshot : Snapshot}
    (consistent : snapshot.Consistent)
    {first second : Nat}
    {firstEntry secondEntry : Entry}
    (atFirst : snapshot.entries[first]? = some firstEntry)
    (atSecond : snapshot.entries[second]? = some secondEntry)
    (sameName : firstEntry.qualifiedName = secondEntry.qualifiedName) :
    first = second := by
  have indexedFirst :=
    (consistent secondEntry.qualifiedName first).mpr ⟨firstEntry, atFirst, sameName⟩
  have indexedSecond :=
    (consistent secondEntry.qualifiedName second).mpr ⟨secondEntry, atSecond, rfl⟩
  rw [indexedFirst] at indexedSecond
  exact Option.some.inj indexedSecond

/-- No name is registered twice. -/
theorem Snapshot.Consistent.names_nodup
    {snapshot : Snapshot}
    (consistent : snapshot.Consistent) :
    (snapshot.entries.map Entry.qualifiedName).Nodup := by
  rw [List.nodup_iff_getElem?_ne_getElem?]
  intro first second before inside same
  rw [List.length_map] at inside
  have atSecond := List.getElem?_eq_getElem inside
  have atFirst := List.getElem?_eq_getElem (before.trans inside)
  rw [List.getElem?_map, List.getElem?_map, atFirst, atSecond] at same
  have sameName := Option.some.inj same
  exact Nat.ne_of_lt before (consistent.position_unique atFirst atSecond sameName)

/-- The entry of a registered name is the first one of that name. -/
theorem Snapshot.Consistent.find_entry
    {snapshot : Snapshot}
    (consistent : snapshot.Consistent)
    {id : Nat}
    {entry : Entry}
    (found : snapshot.entries[id]? = some entry) :
    snapshot.entries.find? (fun other => other.qualifiedName = entry.qualifiedName) =
      some entry := by
  cases search :
      snapshot.entries.find?
        (fun other => other.qualifiedName = entry.qualifiedName) with
  | none =>
      have missing := List.find?_eq_none.mp search entry (List.mem_of_getElem? found)
      simp at missing
  | some other =>
      have named : other.qualifiedName = entry.qualifiedName := by
        simpa using List.find?_some search
      obtain ⟨position, atPosition⟩ :=
        List.mem_iff_getElem?.mp (List.mem_of_find?_eq_some search)
      have same := consistent.position_unique atPosition found named
      rw [same, found] at atPosition
      exact atPosition.symm

/-- A call that settled and returned has the position of its name. -/
theorem Settled.id_eq
    {snapshot : Snapshot}
    {request : Request}
    {symbol : Symbol}
    {id : Nat}
    {entry : Entry}
    (settled : Settled snapshot request (.ok symbol) id entry) :
    symbol.id = id := by
  have checked := settled.checked
  split at checked
  · rw [Except.ok.inj checked]
  · cases checked

/-- A settled call throws exactly for another multiset of attributes. -/
theorem Settled.throws_iff
    {snapshot : Snapshot}
    {request : Request}
    {outcome : Except TableError Symbol}
    {id : Nat}
    {entry : Entry}
    (settled : Settled snapshot request outcome id entry) :
    (∃ error, outcome = .error error) ↔
      ¬ entry.attributes.Perm request.attributes := by
  rw [List.perm_comm, ← sameAttributes_iff_perm, settled.checked]
  split
  · rename_i same
    simp [same]
  · rename_i differs
    simp [differs]

/-- `symbol_name` of a symbol that a settled call returned. -/
theorem Settled.symbolName_eq
    {snapshot : Snapshot}
    {request : Request}
    {symbol : Symbol}
    {id : Nat}
    {entry : Entry}
    (settled : Settled snapshot request (.ok symbol) id entry) :
    symbolName snapshot symbol = request.qualified := by
  rw [symbolName, settled.id_eq, settled.found]
  exact settled.named

/--
Every interleaving of the calls of any number of threads: the table only grows and no
call is forgotten, no name has two entries, two calls return one symbol exactly for one
name, the name of a returned symbol is the name asked for, at once and ever after, and
a call throws exactly when the first registration of its name has other attributes.
-/
theorem getSymbol_interleaved
    {Thread : Type}
    [DecidableEq Thread]
    (actions more : List (Action Thread)) :
    let now := run TableState.step .initial actions
    let later := run TableState.step .initial (actions ++ more)
    now.published.entries <+: later.published.entries ∧
      now.completed <:+ later.completed ∧
      (now.published.entries.map Entry.qualifiedName).Nodup ∧
      (∀ first second : Request, ∀ firstSymbol secondSymbol : Symbol,
        (first, .ok firstSymbol) ∈ now.completed →
        (second, .ok secondSymbol) ∈ now.completed →
          (firstSymbol = secondSymbol ↔ first.qualified = second.qualified)) ∧
      (∀ (request : Request) (symbol : Symbol),
        (request, .ok symbol) ∈ now.completed →
          symbolName now.published symbol = request.qualified ∧
            symbolName later.published symbol = request.qualified) ∧
      ∀ (request : Request) (outcome : Except TableError Symbol),
        (request, outcome) ∈ now.completed →
          ∃ entry,
            now.published.entries.find?
                (fun other => other.qualifiedName = request.qualified) =
              some entry ∧
            ((∃ error, outcome = .error error) ↔
              ¬ entry.attributes.Perm request.attributes) := by
  intro now later
  have invariant : now.Invariant := TableState.invariant_run TableState.invariant_initial actions
  have appended : later = run TableState.step now more := List.foldl_append
  have grows : now.published.entries <+: later.published.entries := by
    rw [appended]
    exact TableState.run_grows invariant more
  have remembers : now.completed <:+ later.completed := by
    rw [appended]
    exact TableState.run_remembers now more
  refine ⟨grows, remembers, invariant.consistent.names_nodup, ?_, ?_, ?_⟩
  · intro first second firstSymbol secondSymbol firstReturned secondReturned
    obtain ⟨firstId, firstEntry, firstSettled⟩ := invariant.settled _ firstReturned
    obtain ⟨secondId, secondEntry, secondSettled⟩ := invariant.settled _ secondReturned
    rw [← firstSettled.named, ← secondSettled.named]
    constructor
    · intro sameSymbol
      have atSecond := secondSettled.found
      rw [← secondSettled.id_eq, ← sameSymbol, firstSettled.id_eq,
        firstSettled.found] at atSecond
      rw [Option.some.inj atSecond]
    · intro sameName
      have sameId :=
        invariant.consistent.position_unique firstSettled.found secondSettled.found
          sameName
      rw [← firstSettled.id_eq, ← secondSettled.id_eq] at sameId
      exact congrArg Symbol.mk sameId
  · intro request symbol returned
    obtain ⟨id, entry, settled⟩ := invariant.settled _ returned
    exact ⟨settled.symbolName_eq, (settled.mono grows).symbolName_eq⟩
  · intro request outcome done
    obtain ⟨id, entry, settled⟩ := invariant.settled _ done
    refine ⟨entry, ?_, settled.throws_iff⟩
    have search := invariant.consistent.find_entry settled.found
    rw [settled.named] at search
    exact search

end SymbolTable
