import Stocas.SymbolTable.Interleaving

namespace SymbolTable

open Transition (run run_cons run_nil)

/-!
# Namespaces

Callers ask for a name in a namespace, and the table is keyed by the two joined by `::`.
A sequence of calls keeps namespaces apart exactly when no two of its calls join different
pairs to one text.
-/

/-- A table, who registered its entries, and the calls that returned or threw. -/
structure CallState where
  table : Snapshot
  registrants : List Request
  completed : List (Request × Except TableError Symbol)

namespace CallState

/-- The table before any call. -/
def initial : CallState where
  table := .empty
  registrants := []
  completed := []

/-- One call of `get_symbol`. -/
def call (state : CallState) (request : Request) : CallState :=
  match getSymbol state.table request.namespaceName request.name request.attributes
      request.location with
  | .ok (symbol, table) =>
      { table := table
        registrants :=
          if table.entries.length = state.table.entries.length then
            state.registrants
          else
            state.registrants ++ [request]
        completed := state.completed ++ [(request, .ok symbol)] }
  | .error error =>
      { state with completed := state.completed ++ [(request, .error error)] }

/-- Everything a call can do: settle on an entry, or append one. -/
theorem call_cases
    {state : CallState}
    (consistent : state.table.Consistent)
    (request : Request) :
    (∃ outcome id entry,
      Settled state.table request outcome id entry ∧
        state.call request =
          { state with completed := state.completed ++ [(request, outcome)] }) ∨
      (state.table.indexByQualifiedName.lookup request.qualified = none ∧
        state.call request =
          { table := state.table.append request.entry
            registrants := state.registrants ++ [request]
            completed :=
              state.completed ++ [(request, .ok ⟨state.table.entries.length⟩)] }) := by
  have qualified_eq : qualify request.namespaceName request.name = request.qualified := rfl
  cases indexed : state.table.indexByQualifiedName.lookup request.qualified with
  | none =>
      refine Or.inr ⟨rfl, ?_⟩
      simp [call, getSymbol, qualified_eq, indexed, Snapshot.insertOrValidate, Except.map,
        Snapshot.append, Request.entry]
  | some id =>
      obtain ⟨entry, settled⟩ := consistent.settles indexed
      refine Or.inl ⟨_, id, entry, settled, ?_⟩
      cases validated :
          state.table.validate request.qualified id request.attributes with
      | error failure =>
          simp [call, getSymbol, qualified_eq, indexed, validated, Except.map]
      | ok found =>
          simp [call, getSymbol, qualified_eq, indexed, validated, Except.map]

/-- What holds after the calls. -/
structure Invariant (calls : List Request) (state : CallState) : Prop where
  consistent : state.table.Consistent
  registered : state.registrants.map Request.entry = state.table.entries
  known : ∀ registrant ∈ state.registrants, registrant ∈ calls
  returned :
    ∀ id registrant,
      state.registrants[id]? = some registrant →
      (registrant, .ok ⟨id⟩) ∈ state.completed
  settled :
    ∀ request outcome,
      (request, outcome) ∈ state.completed →
      request ∈ calls ∧ ∃ id entry, Settled state.table request outcome id entry
  all : ∀ request ∈ calls, ∃ outcome, (request, outcome) ∈ state.completed

theorem invariant_initial : Invariant [] initial where
  consistent := Snapshot.Reachable.empty.consistent
  registered := rfl
  known := nofun
  returned := nofun
  settled := nofun
  all := nofun

/-- A call keeps the invariant. -/
theorem Invariant.call
    {calls : List Request}
    {state : CallState}
    (invariant : Invariant calls state)
    (request : Request) :
    Invariant (calls ++ [request]) (state.call request) := by
  have allCompleted
      {later : CallState}
      {outcome : Except TableError Symbol}
      (completed_eq : later.completed = state.completed ++ [(request, outcome)]) :
      ∀ other ∈ calls ++ [request], ∃ outcome, (other, outcome) ∈ later.completed := by
    intro other member
    rw [completed_eq]
    rcases List.mem_append.mp member with isOld | isNew
    · obtain ⟨outcome, found⟩ := invariant.all other isOld
      exact ⟨outcome, List.mem_append_left _ found⟩
    · rw [List.mem_singleton.mp isNew]
      exact ⟨outcome, by simp⟩
  rcases call_cases invariant.consistent request with
    ⟨outcome, id, entry, settled, after⟩ | ⟨fresh, after⟩
  · rw [after]
    refine ⟨invariant.consistent, invariant.registered, ?_, ?_, ?_, allCompleted rfl⟩
    · intro registrant member
      exact List.mem_append_left _ (invariant.known registrant member)
    · intro position registrant found
      exact List.mem_append_left _ (invariant.returned position registrant found)
    · intro other otherOutcome member
      rcases List.mem_append.mp member with isOld | isNew
      · obtain ⟨called, facts⟩ := invariant.settled other otherOutcome isOld
        exact ⟨List.mem_append_left _ called, facts⟩
      · cases List.mem_singleton.mp isNew
        exact ⟨by simp, id, entry, settled⟩
  · rw [after]
    have length_eq : state.registrants.length = state.table.entries.length := by
      rw [← invariant.registered, List.length_map]
    refine ⟨invariant.consistent.append request.entry fresh, ?_, ?_, ?_, ?_,
      allCompleted rfl⟩
    · simp [Snapshot.append, invariant.registered]
    · intro registrant member
      rcases List.mem_append.mp member with isOld | isNew
      · exact List.mem_append_left _ (invariant.known registrant isOld)
      · exact List.mem_append_right _ isNew
    · intro position registrant found
      by_cases isOld : position < state.registrants.length
      · rw [List.getElem?_append_left isOld] at found
        exact List.mem_append_left _ (invariant.returned position registrant found)
      · have inside := (List.getElem?_eq_some_iff.mp found).1
        rw [List.length_append, List.length_singleton] at inside
        have isLast : position = state.registrants.length := by
          omega
        subst isLast
        rw [List.getElem?_concat_length, Option.some.injEq] at found
        subst found
        rw [length_eq]
        simp
    · intro other otherOutcome member
      rcases List.mem_append.mp member with isOld | isNew
      · obtain ⟨called, id, entry, settled⟩ := invariant.settled other otherOutcome isOld
        exact ⟨List.mem_append_left _ called, id, entry,
          settled.mono (List.prefix_append _ _)⟩
      · cases List.mem_singleton.mp isNew
        exact ⟨by simp, _, _, settled_append state.table request⟩

/-- Every run keeps the invariant. -/
theorem invariant_run (calls : List Request) :
    Invariant calls (run call initial calls) := by
  induction calls using List.reverseRecOn with
  | nil =>
      exact invariant_initial
  | append_singleton calls request inductionHypothesis =>
      have appended :
          run call initial (calls ++ [request]) =
            (run call initial calls).call request :=
        List.foldl_append
      rw [appended]
      exact inductionHypothesis.call request

/-- The call that registered the name on which a call settled. -/
theorem Invariant.exists_registrant
    {calls : List Request}
    {state : CallState}
    (invariant : Invariant calls state)
    {request : Request}
    {outcome : Except TableError Symbol}
    {id : Nat}
    {entry : Entry}
    (settled : Settled state.table request outcome id entry) :
    ∃ registrant,
      state.registrants[id]? = some registrant ∧ registrant.entry = entry ∧
        state.table.indexByQualifiedName.lookup request.qualified = some id := by
  have found := settled.found
  rw [← invariant.registered, List.getElem?_map] at found
  obtain ⟨registrant, isRegistrant, entry_eq⟩ := Option.map_eq_some_iff.mp found
  exact ⟨registrant, isRegistrant, entry_eq,
    (invariant.consistent _ _).mpr ⟨entry, settled.found, settled.named⟩⟩

end CallState

/-- Two calls ask for one name in one namespace. -/
def Request.SamePair (first second : Request) : Prop :=
  first.namespaceName = second.namespaceName ∧ first.name = second.name

/--
Namespaces isolate symbols: calls return one symbol exactly for one pair, and a call that
throws found a registration made for its own pair.
-/
structure NamespacesIsolate (state : CallState) : Prop where
  symbols :
    ∀ first second firstSymbol secondSymbol,
      (first, .ok firstSymbol) ∈ state.completed →
      (second, .ok secondSymbol) ∈ state.completed →
      (firstSymbol = secondSymbol ↔ first.SamePair second)
  conflicts :
    ∀ request error,
      (request, .error error) ∈ state.completed →
      ∃ id registrant,
        state.table.indexByQualifiedName.lookup request.qualified = some id ∧
          state.registrants[id]? = some registrant ∧ registrant.SamePair request

/-- In isolated namespaces every call has the pair of its registrant. -/
theorem NamespacesIsolate.samePair
    {calls : List Request}
    {state : CallState}
    (isolate : NamespacesIsolate state)
    (invariant : state.Invariant calls)
    {request registrant : Request}
    {outcome : Except TableError Symbol}
    {id : Nat}
    {entry : Entry}
    (completed : (request, outcome) ∈ state.completed)
    (settled : Settled state.table request outcome id entry)
    (registered : state.registrants[id]? = some registrant) :
    registrant.SamePair request := by
  have registrantReturned := invariant.returned id registrant registered
  cases outcome with
  | ok symbol =>
      have sameSymbol : (⟨id⟩ : Symbol) = symbol := by
        rw [← settled.id_eq]
      exact (isolate.symbols registrant request ⟨id⟩ symbol registrantReturned
        completed).mp sameSymbol
  | error error =>
      obtain ⟨other, otherRegistrant, indexed, isOther, samePair⟩ :=
        isolate.conflicts request error completed
      obtain ⟨-, -, -, here⟩ := invariant.exists_registrant settled
      rw [here, Option.some.injEq] at indexed
      subst indexed
      rw [registered, Option.some.injEq] at isOther
      subst isOther
      exact samePair

/-- No two of the calls join different pairs to one qualified name. -/
def JoinedApart (calls : List Request) : Prop :=
  ∀ first ∈ calls, ∀ second ∈ calls,
    first.qualified = second.qualified → first.SamePair second

/-- Calls for one qualified name settle on one entry. -/
theorem CallState.Invariant.same_id
    {calls : List Request}
    {state : CallState}
    (invariant : state.Invariant calls)
    {first second : Request}
    {firstOutcome secondOutcome : Except TableError Symbol}
    {firstId secondId : Nat}
    {firstEntry secondEntry : Entry}
    (firstSettled : Settled state.table first firstOutcome firstId firstEntry)
    (secondSettled : Settled state.table second secondOutcome secondId secondEntry) :
    firstId = secondId ↔ first.qualified = second.qualified := by
  rw [← firstSettled.named, ← secondSettled.named]
  constructor
  · intro sameId
    subst sameId
    have sameEntry := firstSettled.found.symm.trans secondSettled.found
    rw [Option.some.injEq] at sameEntry
    rw [sameEntry]
  · intro sameName
    exact invariant.consistent.position_unique firstSettled.found secondSettled.found
      sameName

/-- Calls that are joined apart isolate namespaces. -/
theorem namespacesIsolate_of_joinedApart
    {calls : List Request}
    {state : CallState}
    (invariant : state.Invariant calls)
    (apart : JoinedApart calls) :
    NamespacesIsolate state := by
  refine ⟨?_, ?_⟩
  · intro first second firstSymbol secondSymbol firstReturned secondReturned
    obtain ⟨firstCalled, id, entry, firstSettled⟩ := invariant.settled _ _ firstReturned
    obtain ⟨secondCalled, otherId, otherEntry, secondSettled⟩ :=
      invariant.settled _ _ secondReturned
    have sameId := invariant.same_id firstSettled secondSettled
    rw [← firstSettled.id_eq, ← secondSettled.id_eq] at sameId
    constructor
    · intro sameSymbol
      exact apart first firstCalled second secondCalled
        (sameId.mp (congrArg Symbol.id sameSymbol))
    · rintro ⟨sameNamespace, sameName⟩
      have sameQualified : first.qualified = second.qualified := by
        rw [Request.qualified, Request.qualified, sameNamespace, sameName]
      exact congrArg Symbol.mk (sameId.mpr sameQualified)
  · intro request error thrown
    obtain ⟨called, id, entry, settled⟩ := invariant.settled _ _ thrown
    obtain ⟨registrant, registered, entry_eq, indexed⟩ :=
      invariant.exists_registrant settled
    refine ⟨id, registrant, indexed, registered, ?_⟩
    have registrantCalled :=
      invariant.known registrant (List.mem_of_getElem? registered)
    have named := settled.named
    rw [← entry_eq] at named
    exact apart registrant registrantCalled request called named

/--
A sequence of calls isolates namespaces exactly when no two calls of it join different
pairs of a namespace and a name to one qualified name.
-/
theorem namespacesIsolate_iff (calls : List Request) :
    NamespacesIsolate (run CallState.call .initial calls) ↔
      ∀ first ∈ calls, ∀ second ∈ calls,
        qualify first.namespaceName first.name =
          qualify second.namespaceName second.name →
        first.namespaceName = second.namespaceName ∧ first.name = second.name := by
  have invariant := CallState.invariant_run calls
  constructor
  · intro isolate first firstCalled second secondCalled sameName
    obtain ⟨firstOutcome, firstCompleted⟩ := invariant.all first firstCalled
    obtain ⟨secondOutcome, secondCompleted⟩ := invariant.all second secondCalled
    obtain ⟨-, id, entry, firstSettled⟩ := invariant.settled _ _ firstCompleted
    obtain ⟨-, otherId, otherEntry, secondSettled⟩ :=
      invariant.settled _ _ secondCompleted
    have sameId := (invariant.same_id firstSettled secondSettled).mpr sameName
    subst sameId
    obtain ⟨registrant, registered, -, -⟩ := invariant.exists_registrant firstSettled
    have firstPair := isolate.samePair invariant firstCompleted firstSettled registered
    have secondPair := isolate.samePair invariant secondCompleted secondSettled registered
    exact ⟨firstPair.1.symm.trans secondPair.1, firstPair.2.symm.trans secondPair.2⟩
  · exact namespacesIsolate_of_joinedApart invariant

/-- The name of a qualified name, when it has no colon. -/
theorem takeWhile_qualify
    {namespaceName name : Text}
    (noColon : ':' ∉ name) :
    (qualify namespaceName name).reverse.takeWhile (fun character => character != ':') =
      name.reverse := by
  have inName :
      ∀ character ∈ name.reverse, (character != ':') = true := by
    intro character member
    rw [bne_iff_ne]
    intro isColon
    subst isColon
    exact noColon (List.mem_reverse.mp member)
  simp [qualify, List.takeWhile_append_of_pos inName]

/-- Names without colons keep their namespaces apart. -/
theorem namespacesIsolate_of_noColon
    {calls : List Request}
    (noColon : ∀ request ∈ calls, ':' ∉ request.name) :
    NamespacesIsolate (run CallState.call .initial calls) := by
  apply namespacesIsolate_of_joinedApart (CallState.invariant_run calls)
  intro first firstCalled second secondCalled sameQualified
  have sameReverse : first.name.reverse = second.name.reverse := by
    have sameTexts : qualify first.namespaceName first.name =
        qualify second.namespaceName second.name :=
      sameQualified
    rw [← takeWhile_qualify (noColon first firstCalled), sameTexts,
      takeWhile_qualify (noColon second secondCalled)]
  have sameName := List.reverse_injective sameReverse
  refine ⟨?_, sameName⟩
  simpa [Request.qualified, qualify, sameName] using sameQualified

/-- `a` with `b::c`, and `a::b` with `c`: one symbol for two pairs. -/
theorem namespaces_collide :
    ¬NamespacesIsolate
      (run CallState.call .initial
        [⟨"a".toList, "b::c".toList, [], ⟨[], 0⟩⟩,
          ⟨"a::b".toList, "c".toList, [], ⟨[], 0⟩⟩]) := by
  intro isolate
  have samePair :=
    (isolate.symbols ⟨"a".toList, "b::c".toList, [], ⟨[], 0⟩⟩
      ⟨"a::b".toList, "c".toList, [], ⟨[], 0⟩⟩ ⟨0⟩ ⟨0⟩ (by decide) (by decide)).mp rfl
  exact absurd samePair.1 (by decide)

end SymbolTable
