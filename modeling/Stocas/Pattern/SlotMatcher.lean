import Stocas.Atom.Builders
import Stocas.Pattern.Matcher

namespace PatternCore

open AtomCore (AtomStore AtomTree)
open SymbolTable (Snapshot Symbol Text)

/-!
# The matcher on arena slots

`match` reads its target through views of an arena, and bindings hold such views.  The
pattern is only read as well; it is given by its tree, since the arena it comes from need
not be the target's.  Matching builds nothing, so the arena stays the same throughout.
-/

namespace Slots

/-- `BoundValue`: one view or several. -/
inductive BoundValue where
  | atom (bound : ℕ)
  | sequence (bound : List ℕ)

/-- `MatchBindings`; only lookups and insertions of new keys are made. -/
abbrev MatchBindings : Type := List (Symbol × BoundValue)

/-- A part of the search. -/
abbrev Search (α : Type) : Type := Except MatchError α

/-- A child of a pattern, with `match_impl` for it. -/
structure PatternChild where
  tree : AtomTree
  attempt : ℕ → MatchBindings → Search (Option MatchBindings)

/-- `std::sort` of views by `atom_view_less`. -/
def sortSlots (store : AtomStore) (slots : List ℕ) : List ℕ :=
  slots.insertionSort fun first second => store.compareSlots second first ≠ .lt

/-- `same_multiset`. -/
def sameMultiset (store : AtomStore) (lhs rhs : List ℕ) : Bool :=
  lhs.length == rhs.length &&
    ((sortSlots store lhs).zip (sortSlots store rhs)).all fun pair =>
      store.slotsEqual pair.1 pair.2

/-- `split_sequence_wildcard`, after some children. -/
def splitSequenceWildcard
    (table : Snapshot) :
    List PatternChild →
    Option SequenceWildcard →
    Search (List PatternChild × Option SequenceWildcard)
  | [], sequence => .ok ([], sequence)
  | child :: rest, sequence =>
      match sequenceWildcard? table child.tree with
      | some found =>
          if sequence.isSome then
            .error (.invalidArgument
              ("pattern_core::match: at most one sequence wildcard is " ++
                "supported per Add/Mul/Fun argument list").toList)
          else
            splitSequenceWildcard table rest (some found)
      | none => do
          let (normals, sequence) ← splitSequenceWildcard table rest sequence
          .ok (child :: normals, sequence)

/-- `bind_sequence`. -/
def bindSequence
    (store : AtomStore)
    (sequence : SequenceWildcard)
    (captured : List ℕ)
    (bindings : MatchBindings) :
    Search (Option MatchBindings) :=
  if sequence.kind = .atLeastOne ∧ captured = [] then
    .ok none
  else
    match bindings.lookup sequence.symbol with
    | some (.sequence bound) =>
        if sameMultiset store bound captured then
          .ok (some bindings)
        else
          .ok none
    | some (.atom _) => .ok none
    | none => .ok (some ((sequence.symbol, .sequence captured) :: bindings))

/-- The slots of the pool that are not used. -/
def leftover : List ℕ → List Bool → List ℕ
  | target :: pool, isUsed :: used =>
      if isUsed then leftover pool used else target :: leftover pool used
  | _, _ => []

/-- What `assign_normals` gives back: bindings and `used`, and the attempts left. -/
abbrev Assigned : Type := Option (MatchBindings × List Bool) × ℕ

/-- The loop of `assign_normals` over the positions of the pool. -/
def tryPositions
    (child : PatternChild)
    (used : List Bool)
    (bindings : MatchBindings)
    (assignRest : List Bool → MatchBindings → ℕ → Search Assigned) :
    List (ℕ × ℕ) → ℕ → Search Assigned
  | [], attempts => .ok (none, attempts)
  | (target, position) :: others, attempts =>
      if used[position]? ≠ some false then
        tryPositions child used bindings assignRest others attempts
      else if attempts = 0 then
        .ok (none, 0)
      else do
        match ← child.attempt target bindings with
        | none =>
            tryPositions child used bindings assignRest others (attempts - 1)
        | some kept => do
            let (result, attempts) ←
              assignRest (used.set position true) kept (attempts - 1)
            match result with
            | some found => .ok (some found, attempts)
            | none => tryPositions child used bindings assignRest others attempts

/-- `assign_normals`. -/
def assignNormals (pool : List ℕ) :
    List PatternChild → List Bool → MatchBindings → ℕ → Search Assigned
  | [], used, bindings, attempts => .ok (some (bindings, used), attempts)
  | child :: normals, used, bindings, attempts =>
      tryPositions child used bindings (assignNormals pool normals) pool.zipIdx attempts

/-- `match_commutative`, on `children_of(target)`. -/
def matchCommutative
    (table : Snapshot)
    (store : AtomStore)
    (children : List PatternChild)
    (targets : List ℕ)
    (bindings : MatchBindings) :
    Search (Option MatchBindings) := do
  let (normals, sequence) ← splitSequenceWildcard table children none
  if sequence.isNone ∧ normals.length ≠ targets.length then
    .ok none
  else if sequence.isSome ∧ targets.length < normals.length then
    .ok none
  else
    let (assigned, _) ←
      assignNormals targets normals (List.replicate targets.length false) bindings
        maxCommutativeAssignmentAttempts
    match assigned, sequence with
    | none, _ => .ok none
    | some (assigned, _), none => .ok (some assigned)
    | some (assigned, used), some sequence =>
        bindSequence store sequence (leftover targets used) assigned

/-- A loop of `match_positional_with_sequence`, and what follows it. -/
def matchInOrder
    (after : MatchBindings → Search (Option MatchBindings)) :
    List PatternChild → List ℕ → MatchBindings → Search (Option MatchBindings)
  | child :: children, target :: targets, bindings => do
      match ← child.attempt target bindings with
      | none => .ok none
      | some kept => matchInOrder after children targets kept
  | _, _, bindings => after bindings

/-- The search for the sequence wildcard among positional children. -/
def findSequenceWildcard
    (table : Snapshot) :
    List PatternChild →
    ℕ →
    Option (SequenceWildcard × ℕ) →
    Search (Option (SequenceWildcard × ℕ))
  | [], _, found => .ok found
  | child :: rest, position, found =>
      match sequenceWildcard? table child.tree with
      | some sequence =>
          if found.isSome then
            .error (.invalidArgument
              ("pattern_core::match: at most one sequence wildcard is " ++
                "supported per Add/Mul/Fun argument list").toList)
          else
            findSequenceWildcard table rest (position + 1) (some (sequence, position))
      | none => findSequenceWildcard table rest (position + 1) found

/-- `match_positional_with_sequence`, on `children_of(target)`. -/
def matchPositionalWithSequence
    (table : Snapshot)
    (store : AtomStore)
    (children : List PatternChild)
    (targets : List ℕ)
    (bindings : MatchBindings) :
    Search (Option MatchBindings) := do
  match ← findSequenceWildcard table children 0 none with
  | none =>
      if children.length ≠ targets.length then
        .ok none
      else
        matchInOrder (fun bindings => .ok (some bindings)) children targets bindings
  | some (sequence, position) =>
      let prefixCount := position
      let suffixCount := children.length - position - 1
      if targets.length < prefixCount + suffixCount then
        .ok none
      else
        let middleCount := targets.length - prefixCount - suffixCount
        if sequence.kind = .atLeastOne ∧ middleCount = 0 then
          .ok none
        else
          let captured := (targets.drop prefixCount).take middleCount
          let matchSuffix :=
            matchInOrder (bindSequence store sequence captured)
              (children.drop (position + 1)) (targets.drop (prefixCount + middleCount))
          matchInOrder matchSuffix (children.take prefixCount)
            (targets.take prefixCount) bindings

/-- The case of a `Single` wildcard in `match_impl`. -/
def bindAtom
    (store : AtomStore)
    (symbol : Symbol)
    (target : ℕ)
    (bindings : MatchBindings) :
    Search (Option MatchBindings) :=
  match bindings.lookup symbol with
  | some (.atom bound) =>
      if store.slotsEqual bound target then .ok (some bindings) else .ok none
  | some (.sequence _) => .ok none
  | none => .ok (some ((symbol, .atom target) :: bindings))

mutual

/-- `match_impl`. -/
def matchImpl (table : Snapshot) (store : AtomStore) :
    AtomTree → ℕ → MatchBindings → Search (Option MatchBindings)
  | .var symbol, target, bindings =>
      match wildcardKind table symbol with
      | some .single => bindAtom store symbol target bindings
      | some _ =>
          .error (.invalidArgument
            ("pattern_core::match: sequence wildcards are only valid as a " ++
              "direct child of Add/Mul/Fun").toList)
      | none =>
          if store.tag target = .var ∧ symbol = store.symbolOf target then
            .ok (some bindings)
          else
            .ok none
  | .num value, target, bindings =>
      if store.tag target = .num ∧ value = store.asNum target then
        .ok (some bindings)
      else
        .ok none
  | .pow base exponent, target, bindings =>
      match store.tag target, store.children target with
      | .pow, [targetBase, targetExponent] => do
          match ← matchImpl table store base targetBase bindings with
          | none => .ok none
          | some afterBase => matchImpl table store exponent targetExponent afterBase
      | _, _ => .ok none
  | .add terms, target, bindings =>
      if store.tag target = .add then
        matchCommutative table store (patternChildren table store terms)
          (store.children target) bindings
      else
        .ok none
  | .mul factors, target, bindings =>
      if store.tag target = .mul then
        matchCommutative table store (patternChildren table store factors)
          (store.children target) bindings
      else
        .ok none
  | .func head arguments, target, bindings =>
      if store.tag target ≠ .func ∨ head ≠ store.symbolOf target then
        .ok none
      else if isSymmetric table head then
        matchCommutative table store (patternChildren table store arguments)
          (store.children target) bindings
      else
        matchPositionalWithSequence table store (patternChildren table store arguments)
          (store.children target) bindings

/-- The children of a pattern, each with its matcher. -/
def patternChildren (table : Snapshot) (store : AtomStore) :
    List AtomTree → List PatternChild
  | [] => []
  | child :: rest => ⟨child, matchImpl table store child⟩ :: patternChildren table store rest

end

/-- `match`, from empty bindings. -/
def matchAtoms
    (table : Snapshot)
    (store : AtomStore)
    (pattern : AtomTree)
    (target : ℕ) :
    Search (Option MatchBindings) :=
  matchImpl table store pattern target []

end Slots

end PatternCore
