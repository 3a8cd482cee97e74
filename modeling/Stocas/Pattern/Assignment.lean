import Stocas.Library.Outcome
import Stocas.Pattern.Soundness

namespace PatternCore

open AtomCore (AtomTree)
open RecordedOutcomes (Recorded Run fail note result_bind)
open SymbolTable (Snapshot)

/-!
# The state that a search for an assignment shares

The calls of `assign_normals` share the vector `used` and the counter
`attempts_remaining`, and change both in place.  A call that gives up leaves `used` as
it was, so it computes what the search on its own copy of `used` computes.
-/

/-- What the calls of `assign_normals` take by reference. -/
structure AssignState where
  used : List Bool
  attemptsRemaining : Nat
  deriving Repr, DecidableEq

/-- A search that changes the state in place. -/
abbrev InPlaceSearch : Type := Search (Option MatchBindings × AssignState)

namespace InPlace

/-- The loop of `assign_normals` over the positions of the pool. -/
def tryPositions
    (child : PatternChild)
    (bindings : MatchBindings)
    (assignRest : MatchBindings → AssignState → InPlaceSearch) :
    List (AtomTree × Nat) → AssignState → InPlaceSearch
  | [], state => pure (none, state)
  | (target, position) :: others, state =>
      if state.used[position]? ≠ some false then
        tryPositions child bindings assignRest others state
      else if state.attemptsRemaining = 0 then do
        note .exhausted
        pure (none, state)
      else do
        let attemptsRemaining := state.attemptsRemaining - 1
        match ← child.attempt target bindings with
        | none =>
            tryPositions child bindings assignRest others ⟨state.used, attemptsRemaining⟩
        | some kept => do
            let (result, state) ←
              assignRest kept ⟨state.used.set position true, attemptsRemaining⟩
            match result with
            | some found => pure (some found, state)
            | none => do
                note (.dropped child.tree target bindings kept)
                tryPositions child bindings assignRest others
                  ⟨state.used.set position false, state.attemptsRemaining⟩

/-- `assign_normals`. -/
def assignNormals (pool : List AtomTree) :
    List PatternChild → MatchBindings → AssignState → InPlaceSearch
  | [], bindings, state => pure (some bindings, state)
  | child :: normals, bindings, state =>
      tryPositions child bindings (assignNormals pool normals) pool.zipIdx state

/-- The state that `match_commutative` starts with. -/
def initialState (targets : List AtomTree) (attempts : Nat) : AssignState :=
  ⟨List.replicate targets.length false, attempts⟩

/-- `match_commutative`. -/
def matchCommutative
    (table : Snapshot)
    (children : List PatternChild)
    (targets : List AtomTree)
    (bindings : MatchBindings) :
    Search (Option MatchBindings) := do
  let (normals, sequence) ← splitSequenceWildcard table children none
  if sequence.isNone ∧ normals.length ≠ targets.length then
    pure none
  else if sequence.isSome ∧ targets.length < normals.length then
    pure none
  else
    let (assigned, state) ←
      assignNormals targets normals bindings
        (initialState targets maxCommutativeAssignmentAttempts)
    match assigned, sequence with
    | none, _ => pure none
    | some assigned, none => pure (some assigned)
    | some assigned, some sequence => do
        let captured := leftover targets state.used
        let result ← bindSequence .commutative sequence captured assigned
        noteIfNone
          (.captureDropped (normals.map PatternChild.tree) targets bindings
            assigned captured)
          result

end InPlace

/-- What a search on its own copy of `used` leaves for the calls that share it. -/
def sharedOutcome (used : List Bool) : Assigned → Option MatchBindings × AssignState
  | (some (found, usedAfter), attempts) => (some found, ⟨usedAfter, attempts⟩)
  | (none, attempts) => (none, ⟨used, attempts⟩)

/-- Marking an unused position and unmarking it changes nothing. -/
theorem set_true_set_false
    {used : List Bool}
    {position : Nat}
    (unused : used[position]? = some false) :
    (used.set position true).set position false = used := by
  obtain ⟨inside, isFalse⟩ := List.getElem?_eq_some_iff.mp unused
  rw [List.set_set, ← isFalse, List.set_getElem_self]

/-- One loop shares its state when the calls on the rest do. -/
theorem inPlace_tryPositions_eq
    {child : PatternChild}
    {bindings : MatchBindings}
    {sharedRest : MatchBindings → AssignState → InPlaceSearch}
    {assignRest : List Bool → MatchBindings → Nat → Search Assigned}
    (restEq :
      ∀ used kept attempts,
        sharedRest kept ⟨used, attempts⟩ =
          assignRest used kept attempts >>= fun assigned =>
            pure (sharedOutcome used assigned))
    (used : List Bool)
    (positions : List (AtomTree × Nat))
    (attempts : Nat) :
    InPlace.tryPositions child bindings sharedRest positions ⟨used, attempts⟩ =
      tryPositions child used bindings assignRest positions attempts >>= fun assigned =>
        pure (sharedOutcome used assigned) := by
  induction positions generalizing attempts with
  | nil =>
      rfl
  | cons first others inductionHypothesis =>
      obtain ⟨target, position⟩ := first
      rw [InPlace.tryPositions, tryPositions]
      by_cases isUsed : used[position]? ≠ some false
      · rw [if_pos isUsed, if_pos isUsed]
        exact inductionHypothesis attempts
      · rw [if_neg isUsed, if_neg isUsed]
        by_cases exhausted : attempts = 0
        · rw [if_pos exhausted, if_pos exhausted, exhausted]
          rfl
        · rw [if_neg exhausted, if_neg exhausted, RecordedOutcomes.bind_assoc]
          refine bind_congr fun outcome => ?_
          cases outcome with
          | none =>
              exact inductionHypothesis (attempts - 1)
          | some kept =>
              simp only
              rw [restEq, RecordedOutcomes.bind_assoc, RecordedOutcomes.bind_assoc]
              refine bind_congr fun assigned => ?_
              obtain ⟨found, left⟩ := assigned
              cases found with
              | some found =>
                  rfl
              | none =>
                  simp only [sharedOutcome, RecordedOutcomes.pure_bind]
                  rw [set_true_set_false (not_ne_iff.mp isUsed), inductionHypothesis left,
                    RecordedOutcomes.bind_assoc]
                  rfl

/--
The calls that share `used` compute what the search on its own copy computes, and
leave `used` as it was when they give up.
-/
theorem inPlace_assignNormals_eq
    (pool : List AtomTree)
    (normals : List PatternChild)
    (used : List Bool)
    (bindings : MatchBindings)
    (attempts : Nat) :
    InPlace.assignNormals pool normals bindings ⟨used, attempts⟩ =
      assignNormals pool normals used bindings attempts >>= fun assigned =>
        pure (sharedOutcome used assigned) := by
  induction normals generalizing used bindings attempts with
  | nil =>
      rfl
  | cons child normals inductionHypothesis =>
      exact inPlace_tryPositions_eq
        (fun used kept attempts => inductionHypothesis used kept attempts) used
        pool.zipIdx attempts

/-- Sharing the state makes no difference to `match_commutative`. -/
theorem inPlace_matchCommutative_eq
    (table : Snapshot)
    (children : List PatternChild)
    (targets : List AtomTree)
    (bindings : MatchBindings) :
    InPlace.matchCommutative table children targets bindings =
      matchCommutative table children targets bindings := by
  rw [InPlace.matchCommutative, matchCommutative]
  refine bind_congr fun split => ?_
  obtain ⟨normals, sequence⟩ := split
  simp only [InPlace.initialState, inPlace_assignNormals_eq, RecordedOutcomes.bind_assoc,
    RecordedOutcomes.pure_bind]
  refine if_congr Iff.rfl rfl (if_congr Iff.rfl rfl (bind_congr fun assigned => ?_))
  obtain ⟨found, left⟩ := assigned
  cases found with
  | none =>
      rfl
  | some found =>
      cases sequence with
      | none =>
          rfl
      | some sequence =>
          rfl

/-- What the marks of a vector are after distinct unused positions were marked. -/
structure Marks
    (used : List Bool)
    (positions : List Nat)
    (usedAfter : List Bool) : Prop where
  distinct : positions.Nodup
  unused : ∀ position ∈ positions, used[position]? = some false
  length_eq : usedAfter.length = used.length
  marked_iff :
    ∀ position : Nat,
      usedAfter[position]? = some true ↔
        used[position]? = some true ∨ position ∈ positions
  count_eq : usedAfter.count true = used.count true + positions.length

theorem Marks.nil (used : List Bool) : Marks used [] used where
  distinct := List.nodup_nil
  unused := by simp
  length_eq := rfl
  marked_iff := by simp
  count_eq := rfl

/-- An unused position is marked before the others. -/
theorem Marks.cons
    {used usedAfter : List Bool}
    {position : Nat}
    {positions : List Nat}
    (unused : used[position]? = some false)
    (marks : Marks (used.set position true) positions usedAfter) :
    Marks used (position :: positions) usedAfter := by
  obtain ⟨inside, isFalse⟩ := List.getElem?_eq_some_iff.mp unused
  have isMarked : (used.set position true)[position]? = some true := by
    simp [inside]
  have elsewhere
      (other : Nat)
      (differ : position ≠ other) :
      (used.set position true)[other]? = used[other]? := by
    rw [List.getElem?_set_ne differ]
  have notAgain : position ∉ positions := by
    intro member
    have isFree := marks.unused position member
    rw [isMarked] at isFree
    cases isFree
  refine ⟨List.nodup_cons.mpr ⟨notAgain, marks.distinct⟩, ?_, ?_, ?_, ?_⟩
  · intro other member
    rcases List.mem_cons.mp member with isFirst | inRest
    · rw [isFirst]
      exact unused
    · rw [← elsewhere other (fun same => notAgain (same ▸ inRest))]
      exact marks.unused other inRest
  · rw [marks.length_eq, List.length_set]
  · intro other
    rw [marks.marked_iff, List.mem_cons]
    by_cases same : position = other
    · subst other
      simp [isMarked]
    · rw [elsewhere other same]
      simp [Ne.symm same]
  · rw [marks.count_eq, List.count_set inside, List.length_cons]
    simp [isFalse]
    omega

/--
Normal children match the elements of the pool at the positions, each under the
bindings that the children before it have left.
-/
inductive Threads (pool : List AtomTree) :
    List PatternChild → List Nat → MatchBindings → MatchBindings → Prop where
  | nil {bindings : MatchBindings} : Threads pool [] [] bindings bindings
  | cons
      {child : PatternChild}
      {normals : List PatternChild}
      {position : Nat}
      {positions : List Nat}
      {target : AtomTree}
      {bindings kept found : MatchBindings}
      (inPool : pool[position]? = some target)
      (attempted : (child.attempt target bindings).result = .ok (some kept))
      (rest : Threads pool normals positions kept found) :
      Threads pool (child :: normals) (position :: positions) bindings found

/-- There is one position for each child. -/
theorem Threads.length_eq
    {pool : List AtomTree}
    {normals : List PatternChild}
    {positions : List Nat}
    {bindings found : MatchBindings}
    (threads : Threads pool normals positions bindings found) :
    positions.length = normals.length := by
  induction threads with
  | nil =>
      rfl
  | cons _ _ _ inductionHypothesis =>
      rw [List.length_cons, List.length_cons, inductionHypothesis]

/-- A successful search has marked a position for each child. -/
theorem exists_threads
    {pool : List AtomTree}
    {normals : List PatternChild}
    {used usedAfter : List Bool}
    {bindings found : MatchBindings}
    {attempts left : Nat}
    (returned :
      (assignNormals pool normals used bindings attempts).result =
        .ok (some (found, usedAfter), left)) :
    ∃ positions,
      Threads pool normals positions bindings found ∧ Marks used positions usedAfter := by
  have ran :
      Run (fun _ => True) (assignNormals pool normals used bindings attempts)
        (some (found, usedAfter), left) :=
    ⟨returned, fun _ _ => trivial⟩
  clear returned
  induction normals generalizing used bindings attempts left with
  | nil =>
      cases RecordedOutcomes.run_pure.mp ran
      exact ⟨[], .nil, .nil _⟩
  | cons child normals inductionHypothesis =>
      obtain ⟨target, position, kept, attemptsLeft, leftAfter, member, unused,
        attempted, assigned⟩ := run_tryPositions_some ran
      obtain ⟨positions, threads, marks⟩ := inductionHypothesis assigned
      exact ⟨position :: positions,
        .cons (List.mk_mem_zipIdx_iff_getElem?.mp member) attempted.1 threads,
        .cons unused marks⟩

/-- What a loop throws a child or the search for the rest throws. -/
theorem tryPositions_error
    {child : PatternChild}
    {used : List Bool}
    {bindings : MatchBindings}
    {assignRest : List Bool → MatchBindings → Nat → Search Assigned}
    {positions : List (AtomTree × Nat)}
    {attempts : Nat}
    {error : MatchError}
    (throws :
      (tryPositions child used bindings assignRest positions attempts).result =
        .error error) :
    (∃ entry ∈ positions, (child.attempt entry.1 bindings).result = .error error) ∨
      ∃ used kept attempts, (assignRest used kept attempts).result = .error error := by
  induction positions generalizing attempts with
  | nil =>
      cases throws
  | cons first others inductionHypothesis =>
      have later
          {attempts : Nat}
          (throws :
            (tryPositions child used bindings assignRest others attempts).result =
              .error error) :
          (∃ entry ∈ first :: others,
              (child.attempt entry.1 bindings).result = .error error) ∨
            ∃ used kept attempts,
              (assignRest used kept attempts).result = .error error := by
        refine (inductionHypothesis throws).imp_left ?_
        rintro ⟨entry, member, thrown⟩
        exact ⟨entry, List.mem_cons_of_mem _ member, thrown⟩
      obtain ⟨target, position⟩ := first
      rw [tryPositions] at throws
      by_cases isUsed : used[position]? ≠ some false
      · rw [if_pos isUsed] at throws
        exact later throws
      · rw [if_neg isUsed] at throws
        by_cases exhausted : attempts = 0
        · rw [if_pos exhausted] at throws
          cases throws
        · rw [if_neg exhausted, result_bind] at throws
          rcases Outcome.bind_eq_error.mp throws with thrown | ⟨outcome, _, thrown⟩
          · exact Or.inl ⟨(target, position), by simp, thrown⟩
          · cases outcome with
            | none =>
                exact later thrown
            | some kept =>
                simp only [result_bind] at thrown
                rcases Outcome.bind_eq_error.mp thrown with inRest | ⟨assigned, _, after⟩
                · exact Or.inr ⟨_, _, _, inRest⟩
                · obtain ⟨found, left⟩ := assigned
                  cases found with
                  | some found =>
                      cases after
                  | none =>
                      exact later after

/-- The search throws only what a child throws for an element of the pool. -/
theorem assignNormals_error
    {pool : List AtomTree}
    {normals : List PatternChild}
    {used : List Bool}
    {bindings : MatchBindings}
    {attempts : Nat}
    {error : MatchError}
    (throws :
      (assignNormals pool normals used bindings attempts).result = .error error) :
    ∃ child ∈ normals, ∃ target ∈ pool, ∃ kept,
      (child.attempt target kept).result = .error error := by
  induction normals generalizing used bindings attempts with
  | nil =>
      cases throws
  | cons child normals inductionHypothesis =>
      rcases tryPositions_error throws with ⟨entry, member, thrown⟩ | ⟨_, _, _, inRest⟩
      · have inPool := List.fst_mem_of_mem_zipIdx member
        exact ⟨child, by simp, entry.1, inPool, bindings, thrown⟩
      · obtain ⟨other, otherMember, target, inPool, kept, thrown⟩ :=
          inductionHypothesis inRest
        exact ⟨other, by simp [otherMember], target, inPool, kept, thrown⟩

/-- The elements of the pool at other positions than these. -/
def elsewhere (pool : List AtomTree) (positions : List Nat) : List AtomTree :=
  (pool.zipIdx.filter (fun entry => entry.2 ∉ positions)).map Prod.fst

/-- What is left is at the unused positions. -/
theorem leftover_eq_filter
    {pool : List AtomTree}
    {used : List Bool} :
    leftover pool used =
      (pool.zipIdx.filter (fun entry => used[entry.2]? = some false)).map Prod.fst := by
  induction pool generalizing used with
  | nil =>
      simp [leftover]
  | cons target pool inductionHypothesis =>
      cases used with
      | nil =>
          simp [leftover]
      | cons isUsed used =>
          rw [leftover, inductionHypothesis, List.zipIdx_cons']
          cases isUsed with
          | true =>
              simp [List.filter_map, Function.comp_def]
          | false =>
              simp [List.filter_map, Function.comp_def]

/-- With nothing used before, exactly these positions are marked. -/
theorem Marks.marked_iff_mem
    {size : Nat}
    {positions : List Nat}
    {usedAfter : List Bool}
    (marks : Marks (List.replicate size false) positions usedAfter)
    (position : Nat) :
    usedAfter[position]? = some true ↔ position ∈ positions := by
  rw [marks.marked_iff]
  refine or_iff_right ?_
  intro marked
  cases List.eq_of_mem_replicate (List.mem_of_getElem? marked)

/-- What is left of the pool is elsewhere than at the marked positions. -/
theorem Marks.leftover_eq
    {pool : List AtomTree}
    {positions : List Nat}
    {usedAfter : List Bool}
    (marks : Marks (List.replicate pool.length false) positions usedAfter) :
    leftover pool usedAfter = elsewhere pool positions := by
  rw [leftover_eq_filter, elsewhere]
  refine congrArg (List.map Prod.fst) (List.filter_congr ?_)
  intro entry member
  have inside : entry.2 < usedAfter.length := by
    rw [marks.length_eq, List.length_replicate]
    exact List.snd_lt_of_mem_zipIdx member
  rw [decide_eq_decide, ← marks.marked_iff_mem, List.getElem?_eq_getElem inside]
  simp

/-- What a call of `assign_normals` on an unused pool may end with. -/
def AssignsOrRestores
    (pool : List AtomTree)
    (normals : List PatternChild)
    (bindings : MatchBindings) :
    Except MatchError (Option MatchBindings × AssignState) → Prop
  | .ok (some found, state) =>
      ∃ positions,
        Threads pool normals positions bindings found ∧
        positions.Nodup ∧
        (∀ position, state.used[position]? = some true ↔ position ∈ positions) ∧
        state.used.length = pool.length ∧
        state.used.count true = normals.length
  | .ok (none, state) => state.used = List.replicate pool.length false
  | .error error =>
      ∃ child ∈ normals, ∃ target ∈ pool, ∃ kept,
        (child.attempt target kept).result = .error error

/-- The result of a search that shares its state, from that of the search on a copy. -/
theorem result_inPlace_assignNormals
    (pool : List AtomTree)
    (normals : List PatternChild)
    (bindings : MatchBindings)
    (attempts : Nat) :
    (InPlace.assignNormals pool normals bindings
        (InPlace.initialState pool attempts)).result =
      (assignNormals pool normals (List.replicate pool.length false) bindings
          attempts).result >>= fun assigned =>
        .ok (sharedOutcome (List.replicate pool.length false) assigned) := by
  rw [InPlace.initialState, inPlace_assignNormals_eq, result_bind]
  rfl

section Outcomes

variable {pool : List AtomTree} {normals : List PatternChild} {bindings : MatchBindings}
  {attempts : Nat} {state : AssignState}

/-- A search that returns bindings has marked the positions of its choices. -/
theorem inPlace_exists_threads
    {found : MatchBindings}
    (returned :
      (InPlace.assignNormals pool normals bindings
          (InPlace.initialState pool attempts)).result =
        .ok (some found, state)) :
    ∃ positions,
      Threads pool normals positions bindings found ∧
        Marks (List.replicate pool.length false) positions state.used := by
  rw [result_inPlace_assignNormals] at returned
  obtain ⟨assigned, onCopy, shared⟩ := Outcome.bind_eq_ok.mp returned
  obtain ⟨kept, left⟩ := assigned
  cases kept with
  | none =>
      cases shared
  | some kept =>
      cases shared
      exact exists_threads onCopy

/-- A search that returns `nullopt` has restored `used`. -/
theorem inPlace_restores
    (returned :
      (InPlace.assignNormals pool normals bindings
          (InPlace.initialState pool attempts)).result =
        .ok (none, state)) :
    state.used = List.replicate pool.length false := by
  rw [result_inPlace_assignNormals] at returned
  obtain ⟨assigned, _, shared⟩ := Outcome.bind_eq_ok.mp returned
  obtain ⟨kept, left⟩ := assigned
  cases kept with
  | none =>
      cases shared
      rfl
  | some kept =>
      cases shared

/-- A search throws only what a child throws. -/
theorem inPlace_error
    {error : MatchError}
    (thrown :
      (InPlace.assignNormals pool normals bindings
          (InPlace.initialState pool attempts)).result =
        .error error) :
    ∃ child ∈ normals, ∃ target ∈ pool, ∃ kept,
      (child.attempt target kept).result = .error error := by
  rw [result_inPlace_assignNormals] at thrown
  rcases Outcome.bind_eq_error.mp thrown with onCopy | ⟨assigned, _, shared⟩
  · exact assignNormals_error onCopy
  · cases shared

end Outcomes

/-- The search marks what it assigns, and restores what it gives up. -/
theorem inPlace_assignsOrRestores
    (pool : List AtomTree)
    (normals : List PatternChild)
    (bindings : MatchBindings)
    (attempts : Nat) :
    AssignsOrRestores pool normals bindings
      (InPlace.assignNormals pool normals bindings
        (InPlace.initialState pool attempts)).result := by
  cases returned :
      (InPlace.assignNormals pool normals bindings
        (InPlace.initialState pool attempts)).result with
  | error error =>
      exact inPlace_error returned
  | ok outcome =>
      obtain ⟨found, state⟩ := outcome
      cases found with
      | none =>
          exact inPlace_restores returned
      | some found =>
          obtain ⟨positions, threads, marks⟩ := inPlace_exists_threads returned
          refine ⟨positions, threads, marks.distinct, marks.marked_iff_mem, ?_, ?_⟩
          · simpa using marks.length_eq
          · simpa [threads.length_eq, List.count_replicate] using marks.count_eq

/-- With children assigned, `bind_sequence` is called on what is not used. -/
theorem inPlace_matchCommutative_captures
    {table : Snapshot}
    {children normals : List PatternChild}
    {targets : List AtomTree}
    {bindings assigned : MatchBindings}
    {sequence : SequenceWildcard}
    {state : AssignState}
    (split :
      (splitSequenceWildcard table children none).result = .ok (normals, some sequence))
    (enough : normals.length ≤ targets.length)
    (returned :
      (InPlace.assignNormals targets normals bindings
          (InPlace.initialState targets maxCommutativeAssignmentAttempts)).result =
        .ok (some assigned, state)) :
    (InPlace.matchCommutative table children targets bindings).result =
      (bindSequence .commutative sequence (leftover targets state.used)
        assigned).result := by
  have keepsResult
      (event : MatchEvent)
      (captured : Option MatchBindings) :
      (noteIfNone event captured).result = .ok captured := by
    cases captured with
    | none =>
        rfl
    | some kept =>
        rfl
  rw [InPlace.matchCommutative, result_bind, split, Outcome.ok_bind]
  simp only [Option.isNone_some, Bool.false_eq_true, false_and, if_false,
    Option.isSome_some, true_and, Nat.not_lt.mpr enough]
  rw [result_bind, returned, Outcome.ok_bind]
  simp only [result_bind, keepsResult]
  generalize (bindSequence _ _ _ _).result = result
  cases result with
  | error error =>
      rfl
  | ok captured =>
      rfl

/--
`assign_normals` on an unused pool marks the positions of distinct elements that the
normal children match one after the other, or restores `used` when it gives up, or
throws what a child throws.  `match_commutative` binds its sequence wildcard to the
elements at all other positions.
-/
theorem inPlace_assignNormals_restores_and_captures
    (table : Snapshot) :
    (∀ (pool : List AtomTree) (normals : List PatternChild) (bindings : MatchBindings)
        (attempts : Nat),
      AssignsOrRestores pool normals bindings
        (InPlace.assignNormals pool normals bindings
          (InPlace.initialState pool attempts)).result) ∧
      ∀ (children normals : List PatternChild) (targets : List AtomTree)
        (bindings assigned : MatchBindings) (sequence : SequenceWildcard)
        (state : AssignState),
        (splitSequenceWildcard table children none).result =
          .ok (normals, some sequence) →
        normals.length ≤ targets.length →
        (InPlace.assignNormals targets normals bindings
            (InPlace.initialState targets maxCommutativeAssignmentAttempts)).result =
          .ok (some assigned, state) →
        ∃ positions,
          Threads targets normals positions bindings assigned ∧
          positions.Nodup ∧
          (∀ position, state.used[position]? = some true ↔ position ∈ positions) ∧
          (InPlace.matchCommutative table children targets bindings).result =
            (bindSequence .commutative sequence (elsewhere targets positions)
              assigned).result := by
  refine ⟨inPlace_assignsOrRestores, ?_⟩
  intro children normals targets bindings assigned sequence state split enough returned
  obtain ⟨positions, threads, marks⟩ := inPlace_exists_threads returned
  refine ⟨positions, threads, marks.distinct, marks.marked_iff_mem, ?_⟩
  rw [← marks.leftover_eq]
  exact inPlace_matchCommutative_captures split enough returned

/-- `a`, `b`, `c`, `x_` and `y__`. -/
def sumTable : Snapshot :=
  tableOfNames ["a", "b", "c", "x_", "y__"]

/-- `x_ + y__` on `a + b + c` captures what `x_` leaves. -/
theorem inPlace_restores_and_captures_sum :
    ∃ positions,
      positions.Nodup ∧
      (InPlace.matchCommutative sumTable (patternChildren sumTable [.var ⟨3⟩, .var ⟨4⟩])
          [.var ⟨0⟩, .var ⟨1⟩, .var ⟨2⟩] []).result =
        (bindSequence .commutative ⟨⟨4⟩, .atLeastOne⟩
          (elsewhere [.var ⟨0⟩, .var ⟨1⟩, .var ⟨2⟩] positions)
          [(⟨3⟩, .atom (.var ⟨0⟩))]).result := by
  obtain ⟨positions, _, distinct, _, captures⟩ :=
    (inPlace_assignNormals_restores_and_captures sumTable).2
      (patternChildren sumTable [.var ⟨3⟩, .var ⟨4⟩]) (patternChildren sumTable [.var ⟨3⟩])
      [.var ⟨0⟩, .var ⟨1⟩, .var ⟨2⟩] [] [(⟨3⟩, .atom (.var ⟨0⟩))] ⟨⟨4⟩, .atLeastOne⟩
      ⟨[true, false, false], 199999⟩ rfl (by decide) rfl
  exact ⟨positions, distinct, captures⟩

/-- The search for `a^b` throws on the normal child `x_^y__`: it returns nothing. -/
theorem inPlace_assignNormals_throws :
    (∃ error,
      (InPlace.assignNormals [.pow (.var ⟨0⟩) (.var ⟨1⟩)]
          (patternChildren sumTable [.pow (.var ⟨3⟩) (.var ⟨4⟩)]) []
          (InPlace.initialState [.pow (.var ⟨0⟩) (.var ⟨1⟩)]
            maxCommutativeAssignmentAttempts)).result =
        .error error) ∧
    ¬∃ outcome,
      (InPlace.assignNormals [.pow (.var ⟨0⟩) (.var ⟨1⟩)]
          (patternChildren sumTable [.pow (.var ⟨3⟩) (.var ⟨4⟩)]) []
          (InPlace.initialState [.pow (.var ⟨0⟩) (.var ⟨1⟩)]
            maxCommutativeAssignmentAttempts)).result =
        .ok outcome := by
  refine ⟨⟨_, rfl⟩, ?_⟩
  rintro ⟨outcome, returned⟩
  cases returned

end PatternCore
