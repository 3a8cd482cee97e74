import Stocas.Library.Recorded
import Stocas.Pattern.Wildcard

namespace PatternCore

open AtomCore (AtomTree)
open RecordedOutcomes (Recorded fail note)
open SymbolTable (Snapshot Symbol SymbolAttribute Text)

/-!
# The matcher

The matcher reads atoms through their trees only.  Beside its result every
function leaves a record of what the search did; nothing reads the record, and it
serves to say which choices a run made.
-/

/-- `std::invalid_argument`. -/
inductive MatchError where
  | invalidArgument (message : Text)
  deriving Repr, DecidableEq

/-- Where a sequence wildcard captures its list. -/
inductive CaptureContext where
  | commutative
  | positional
  deriving Repr, DecidableEq

/-- What a search may record. -/
inductive MatchEvent where
  /-- A bound wildcard for one atom met an atom. -/
  | repeatedAtom (bound target : AtomTree)
  /-- A bound sequence wildcard met a list. -/
  | repeatedSequence
      (context : CaptureContext)
      (bound captured : List AtomTree)
  /-- The attempts of a commutative search ran out. -/
  | exhausted
  /-- A match of a child was kept, and what followed failed. -/
  | dropped (pattern target : AtomTree) (bindings kept : MatchBindings)
  /-- Children were assigned, and the sequence wildcard refused the rest. -/
  | captureDropped
      (normals pool : List AtomTree)
      (bindings assigned : MatchBindings)
      (leftover : List AtomTree)
  deriving Repr, DecidableEq

/-- A part of the search. -/
abbrev Search (α : Type) : Type := Recorded MatchError MatchEvent α

/-- A child of a pattern, with `match_impl` for it. -/
structure PatternChild where
  tree : AtomTree
  attempt : AtomTree → MatchBindings → Search (Option MatchBindings)

/-- `same_multiset`. -/
def sameMultiset (lhs rhs : List AtomTree) : Bool :=
  lhs.length == rhs.length &&
    lhs.insertionSort (· ≤ ·) == rhs.insertionSort (· ≤ ·)

/-- `split_sequence_wildcard`, after some children. -/
def splitSequenceWildcard
    (table : Snapshot) :
    List PatternChild →
    Option SequenceWildcard →
    Search (List PatternChild × Option SequenceWildcard)
  | [], sequence => pure ([], sequence)
  | child :: rest, sequence =>
      match sequenceWildcard? table child.tree with
      | some found =>
          if sequence.isSome then
            fail (.invalidArgument
              ("pattern_core::match: at most one sequence wildcard is " ++
                "supported per Add/Mul/Fun argument list").toList)
          else
            splitSequenceWildcard table rest (some found)
      | none => do
          let (normals, sequence) ← splitSequenceWildcard table rest sequence
          pure (child :: normals, sequence)

/-- `kMaxCommutativeAssignmentAttempts`. -/
def maxCommutativeAssignmentAttempts : Nat := 200000

/-- Record a choice that is given up. -/
def noteIfNone {α : Type} (event : MatchEvent) :
    Option α → Search (Option α)
  | some result => pure (some result)
  | none => do
      note event
      pure none

/-- Keep the match of a child, and go on with its bindings. -/
def PatternChild.followedBy
    {α : Type}
    (child : PatternChild)
    (target : AtomTree)
    (bindings : MatchBindings)
    (next : MatchBindings → Search (Option α)) :
    Search (Option α) := do
  match ← child.attempt target bindings with
  | none => pure none
  | some kept => do
      let result ← next kept
      noteIfNone (.dropped child.tree target bindings kept) result

/-- `bind_sequence`. -/
def bindSequence
    (context : CaptureContext)
    (sequence : SequenceWildcard)
    (captured : List AtomTree)
    (bindings : MatchBindings) :
    Search (Option MatchBindings) :=
  if sequence.kind = .atLeastOne ∧ captured = [] then
    pure none
  else
    match bindings.lookup sequence.symbol with
    | some (.sequence bound) => do
        note (.repeatedSequence context bound captured)
        if sameMultiset bound captured then
          pure (some bindings)
        else
          pure none
    | some (.atom _) => pure none
    | none => pure (some ((sequence.symbol, .sequence captured) :: bindings))

/-- The elements of the pool that are not used. -/
def leftover : List AtomTree → List Bool → List AtomTree
  | target :: pool, isUsed :: used =>
      if isUsed then leftover pool used else target :: leftover pool used
  | _, _ => []

/-- What `assign_normals` gives back: bindings and `used`, and the attempts left. -/
abbrev Assigned : Type := Option (MatchBindings × List Bool) × Nat

/-- The loop of `assign_normals` over the positions of the pool. -/
def tryPositions
    (child : PatternChild)
    (used : List Bool)
    (bindings : MatchBindings)
    (assignRest : List Bool → MatchBindings → Nat → Search Assigned) :
    List (AtomTree × Nat) → Nat → Search Assigned
  | [], attempts => pure (none, attempts)
  | (target, position) :: others, attempts =>
      if used[position]? ≠ some false then
        tryPositions child used bindings assignRest others attempts
      else if attempts = 0 then do
        note .exhausted
        pure (none, 0)
      else do
        match ← child.attempt target bindings with
        | none =>
            tryPositions child used bindings assignRest others (attempts - 1)
        | some kept => do
            let (result, attempts) ←
              assignRest (used.set position true) kept (attempts - 1)
            match result with
            | some found => pure (some found, attempts)
            | none => do
                note (.dropped child.tree target bindings kept)
                tryPositions child used bindings assignRest others attempts

/-- `assign_normals`. -/
def assignNormals (pool : List AtomTree) :
    List PatternChild → List Bool → MatchBindings → Nat → Search Assigned
  | [], used, bindings, attempts => pure (some (bindings, used), attempts)
  | child :: normals, used, bindings, attempts =>
      tryPositions child used bindings (assignNormals pool normals)
        pool.zipIdx attempts

/-- `match_commutative`. -/
def matchCommutative
    (table : Snapshot)
    (children : List PatternChild)
    (targets : List AtomTree)
    (bindings : MatchBindings) :
    Search (Option MatchBindings) := do
  let (normals, sequence) ← splitSequenceWildcard table children none
  if sequence.isNone ∧ normals.length ≠ targets.length then
    pure none
  else if sequence.isSome ∧ targets.length < normals.length then
    pure none
  else
    let (assigned, _) ←
      assignNormals targets normals (List.replicate targets.length false)
        bindings maxCommutativeAssignmentAttempts
    match assigned, sequence with
    | none, _ => pure none
    | some (assigned, _), none => pure (some assigned)
    | some (assigned, used), some sequence => do
        let captured := leftover targets used
        let result ← bindSequence .commutative sequence captured assigned
        noteIfNone
          (.captureDropped (normals.map PatternChild.tree) targets bindings
            assigned captured)
          result

/-- A loop of `match_positional_with_sequence`, and what follows it. -/
def matchInOrder
    (after : MatchBindings → Search (Option MatchBindings)) :
    List PatternChild →
    List AtomTree →
    MatchBindings →
    Search (Option MatchBindings)
  | child :: children, target :: targets, bindings =>
      child.followedBy target bindings (matchInOrder after children targets)
  | _, _, bindings => after bindings

/-- The search for the sequence wildcard among positional children. -/
def findSequenceWildcard
    (table : Snapshot) :
    List PatternChild →
    Nat →
    Option (SequenceWildcard × Nat) →
    Search (Option (SequenceWildcard × Nat))
  | [], _, found => pure found
  | child :: rest, position, found =>
      match sequenceWildcard? table child.tree with
      | some sequence =>
          if found.isSome then
            fail (.invalidArgument
              ("pattern_core::match: at most one sequence wildcard is " ++
                "supported per Add/Mul/Fun argument list").toList)
          else
            findSequenceWildcard table rest (position + 1)
              (some (sequence, position))
      | none => findSequenceWildcard table rest (position + 1) found

/-- `match_positional_with_sequence`. -/
def matchPositionalWithSequence
    (table : Snapshot)
    (children : List PatternChild)
    (targets : List AtomTree)
    (bindings : MatchBindings) :
    Search (Option MatchBindings) := do
  match ← findSequenceWildcard table children 0 none with
  | none =>
      if children.length ≠ targets.length then
        pure none
      else
        matchInOrder (fun bindings => pure (some bindings)) children targets
          bindings
  | some (sequence, position) =>
      let prefixCount := position
      let suffixCount := children.length - position - 1
      if targets.length < prefixCount + suffixCount then
        pure none
      else
        let middleCount := targets.length - prefixCount - suffixCount
        if sequence.kind = .atLeastOne ∧ middleCount = 0 then
          pure none
        else
          let captured := (targets.drop prefixCount).take middleCount
          let matchSuffix :=
            matchInOrder (bindSequence .positional sequence captured)
              (children.drop (position + 1))
              (targets.drop (prefixCount + middleCount))
          matchInOrder matchSuffix (children.take prefixCount)
            (targets.take prefixCount) bindings

/-- `is_symmetric`. -/
def isSymmetric (table : Snapshot) (head : Symbol) : Bool :=
  (SymbolTable.symbolAttributes table head).contains .symmetric

/-- The case of a `Single` wildcard in `match_impl`. -/
def bindAtom
    (symbol : Symbol)
    (target : AtomTree)
    (bindings : MatchBindings) :
    Search (Option MatchBindings) :=
  match bindings.lookup symbol with
  | some (.atom bound) => do
      note (.repeatedAtom bound target)
      if bound = target then pure (some bindings) else pure none
  | some (.sequence _) => pure none
  | none => pure (some ((symbol, .atom target) :: bindings))

mutual

/-- `match_impl`. -/
def matchImpl (table : Snapshot) :
    AtomTree → AtomTree → MatchBindings → Search (Option MatchBindings)
  | .var symbol, target, bindings =>
      match wildcardKind table symbol with
      | some .single => bindAtom symbol target bindings
      | some _ =>
          fail (.invalidArgument
            ("pattern_core::match: sequence wildcards are only valid as a " ++
              "direct child of Add/Mul/Fun").toList)
      | none =>
          match target with
          | .var other =>
              pure (if symbol = other then some bindings else none)
          | _ => pure none
  | .num value, target, bindings =>
      match target with
      | .num other => pure (if value = other then some bindings else none)
      | _ => pure none
  | .pow base exponent, target, bindings =>
      match target with
      | .pow targetBase targetExponent =>
          PatternChild.followedBy ⟨base, matchImpl table base⟩ targetBase
            bindings (matchImpl table exponent targetExponent)
      | _ => pure none
  | .add terms, target, bindings =>
      match target with
      | .add targets =>
          matchCommutative table (patternChildren table terms) targets bindings
      | _ => pure none
  | .mul factors, target, bindings =>
      match target with
      | .mul targets =>
          matchCommutative table (patternChildren table factors) targets
            bindings
      | _ => pure none
  | .func head arguments, target, bindings =>
      match target with
      | .func targetHead targets =>
          if head ≠ targetHead then
            pure none
          else if isSymmetric table head then
            matchCommutative table (patternChildren table arguments) targets
              bindings
          else
            matchPositionalWithSequence table
              (patternChildren table arguments) targets bindings
      | _ => pure none

/-- The children of a pattern, each with its matcher. -/
def patternChildren (table : Snapshot) : List AtomTree → List PatternChild
  | [] => []
  | child :: rest =>
      ⟨child, matchImpl table child⟩ :: patternChildren table rest

end

/-- `match`, from empty bindings. -/
def matchAtoms (table : Snapshot) (pattern target : AtomTree) :
    Except MatchError (Option MatchBindings) :=
  (matchImpl table pattern target []).result

/-- What the search of `match` did. -/
def matchRecord (table : Snapshot) (pattern target : AtomTree) :
    List MatchEvent :=
  (matchImpl table pattern target []).record

end PatternCore
