import Stocas.Atom.NormalizeStore
import Stocas.Library.Related
import Stocas.Pattern.SlotMatcher

namespace PatternCore

open AtomCore (AtomStore AtomTree)
open RelatedOutcomes (Related)
open SymbolTable (Snapshot Symbol)

/-!
# The matcher follows the trees

Views are compared and sorted by their structure only, so on slots the matcher makes the
choices that it makes on the trees of the slots: neither the numbers of the slots nor
what else is in the arena matters.
-/

namespace Slots

variable {store : AtomStore}

/-- The slot of the arena shows the tree. -/
structure Shows (store : AtomStore) (slot : ℕ) (tree : AtomTree) : Prop where
  inside : slot < store.nodes.length
  tree_eq : store.tree slot = tree

/-- What is bound shows what is bound to trees. -/
inductive BoundShows (store : AtomStore) : BoundValue → PatternCore.BoundValue → Prop where
  | atom
      {bound : ℕ}
      {tree : AtomTree} :
      Shows store bound tree →
      BoundShows store (.atom bound) (.atom tree)
  | sequence
      {bound : List ℕ}
      {trees : List AtomTree} :
      List.Forall₂ (Shows store) bound trees →
      BoundShows store (.sequence bound) (.sequence trees)

/-- Bindings show bindings of the same symbols. -/
def BindingsShow (store : AtomStore) :
    MatchBindings → PatternCore.MatchBindings → Prop :=
  List.Forall₂ fun entry shown => entry.1 = shown.1 ∧ BoundShows store entry.2 shown.2

/-- A part of the search follows its counterpart on trees. -/
def Follows
    (store : AtomStore)
    (search : Search (Option MatchBindings))
    (shown : PatternCore.Search (Option PatternCore.MatchBindings)) :
    Prop :=
  Related (Option.Rel (BindingsShow store)) search shown.result

/-- A child of a pattern is matched as on trees. -/
structure ChildFollows
    (store : AtomStore)
    (child : PatternChild)
    (shown : PatternCore.PatternChild) :
    Prop where
  tree_eq : child.tree = shown.tree
  attempt :
    ∀ {slot : ℕ} {tree : AtomTree} {bindings : MatchBindings}
      {shownBindings : PatternCore.MatchBindings},
      Shows store slot tree →
      BindingsShow store bindings shownBindings →
      Follows store (child.attempt slot bindings) (shown.attempt tree shownBindings)

/-- Slots show the list of their trees. -/
theorem forall₂_shows_iff
    {slots : List ℕ}
    {trees : List AtomTree} :
    List.Forall₂ (Shows store) slots trees ↔
      (∀ slot ∈ slots, slot < store.nodes.length) ∧ slots.map store.tree = trees := by
  induction slots generalizing trees with
  | nil =>
      cases trees with
      | nil =>
          simp
      | cons tree rest =>
          simp
  | cons slot rest inductionHypothesis =>
      cases trees with
      | nil =>
          simp
      | cons tree others =>
          rw [List.forall₂_cons, inductionHypothesis, List.map_cons, List.cons.injEq,
            List.forall_mem_cons]
          constructor
          · rintro ⟨⟨inside, tree_eq⟩, restInside, rest_eq⟩
            exact ⟨⟨inside, restInside⟩, tree_eq, rest_eq⟩
          · rintro ⟨⟨inside, restInside⟩, tree_eq, rest_eq⟩
            exact ⟨⟨inside, tree_eq⟩, restInside, rest_eq⟩

/-- Both lookups find nothing, or what is found is shown. -/
theorem lookup_shows
    {bindings : MatchBindings}
    {shown : PatternCore.MatchBindings}
    (bindingsShow : BindingsShow store bindings shown)
    (symbol : Symbol) :
    Option.Rel (BoundShows store) (bindings.lookup symbol) (shown.lookup symbol) := by
  induction bindingsShow with
  | nil =>
      exact .none
  | @cons entry other _ _ entryShows _ inductionHypothesis =>
      obtain ⟨name, bound⟩ := entry
      obtain ⟨otherName, otherBound⟩ := other
      obtain ⟨rfl, boundShows⟩ := entryShows
      rw [List.lookup_cons, List.lookup_cons]
      cases symbol == name with
      | true =>
          exact .some boundShows
      | false =>
          exact inductionHypothesis

/-- A part that ends without a match. -/
theorem follows_none
    {shown : PatternCore.Search (Option PatternCore.MatchBindings)}
    (noMatch : shown.result = .ok none) :
    Follows store (.ok none) shown := by
  rw [Follows, noMatch]
  exact .ok .none

/-- A part that ends with a match. -/
theorem follows_some
    {bindings : MatchBindings}
    {shownBindings : PatternCore.MatchBindings}
    {shown : PatternCore.Search (Option PatternCore.MatchBindings)}
    (bindingsShow : BindingsShow store bindings shownBindings)
    (isMatch : shown.result = .ok (some shownBindings)) :
    Follows store (.ok (some bindings)) shown := by
  rw [Follows, isMatch]
  exact .ok (.some bindingsShow)

/-- Recording a choice that is given up does not change the result. -/
theorem result_noteIfNone
    {α : Type}
    (event : MatchEvent)
    (search : PatternCore.Search (Option α)) :
    (search >>= noteIfNone event).result = search.result := by
  rw [RelatedOutcomes.result_bind]
  cases search.result with
  | error error =>
      rfl
  | ok result =>
      cases result with
      | none =>
          rfl
      | some found =>
          rfl

/-- The elements that are left over are shown. -/
theorem leftover_shows
    {pool : List ℕ}
    {trees : List AtomTree}
    (poolShows : List.Forall₂ (Shows store) pool trees)
    (used : List Bool) :
    List.Forall₂ (Shows store) (leftover pool used) (PatternCore.leftover trees used) := by
  induction poolShows generalizing used with
  | nil =>
      cases used <;> exact .nil
  | cons targetShows _ inductionHypothesis =>
      cases used with
      | nil =>
          exact .nil
      | cons isUsed used =>
          rw [leftover, PatternCore.leftover]
          split
          · exact inductionHypothesis used
          · exact .cons targetShows (inductionHypothesis used)

/-- The children of a pattern are split in the same way. -/
theorem splitSequenceWildcard_follows
    (table : Snapshot)
    {children : List PatternChild}
    {shown : List PatternCore.PatternChild}
    (childrenFollow : List.Forall₂ (ChildFollows store) children shown)
    (sequence : Option SequenceWildcard) :
    Related
      (fun parts shownParts =>
        List.Forall₂ (ChildFollows store) parts.1 shownParts.1 ∧ parts.2 = shownParts.2)
      (splitSequenceWildcard table children sequence)
      (PatternCore.splitSequenceWildcard table shown sequence).result := by
  induction childrenFollow generalizing sequence with
  | nil =>
      exact .ok ⟨.nil, rfl⟩
  | @cons child shownChild _ _ childFollows _ inductionHypothesis =>
      rw [splitSequenceWildcard, PatternCore.splitSequenceWildcard, childFollows.tree_eq]
      cases sequenceWildcard? table shownChild.tree with
      | some wildcard =>
          cases sequence with
          | some _ =>
              exact .error _
          | none =>
              exact inductionHypothesis (some wildcard)
      | none =>
          dsimp only
          rw [RelatedOutcomes.result_bind]
          refine (inductionHypothesis sequence).bind ?_
          rintro parts shownParts ⟨normalsFollow, sameSequence⟩
          exact .ok ⟨.cons childFollows normalsFollow, sameSequence⟩

/-- The same sequence wildcard is found. -/
theorem findSequenceWildcard_follows
    (table : Snapshot)
    {children : List PatternChild}
    {shown : List PatternCore.PatternChild}
    (childrenFollow : List.Forall₂ (ChildFollows store) children shown)
    (position : ℕ)
    (found : Option (SequenceWildcard × ℕ)) :
    Related Eq (findSequenceWildcard table children position found)
      (PatternCore.findSequenceWildcard table shown position found).result := by
  induction childrenFollow generalizing position found with
  | nil =>
      exact .ok rfl
  | @cons child shownChild _ _ childFollows _ inductionHypothesis =>
      rw [findSequenceWildcard, PatternCore.findSequenceWildcard, childFollows.tree_eq]
      cases sequenceWildcard? table shownChild.tree with
      | some wildcard =>
          cases found with
          | some _ =>
              exact .error _
          | none =>
              exact inductionHypothesis (position + 1) (some (wildcard, position))
      | none =>
          exact inductionHypothesis (position + 1) found

/-- The bindings of an assignment show those on trees, with the same `used`. -/
def AssignedShows (store : AtomStore) (assigned : Assigned) (shown : PatternCore.Assigned) :
    Prop :=
  Option.Rel
      (fun found shownFound =>
        BindingsShow store found.1 shownFound.1 ∧ found.2 = shownFound.2)
      assigned.1 shown.1 ∧
    assigned.2 = shown.2

/-- The loop over the pool follows the trees. -/
theorem tryPositions_follows
    {child : PatternChild}
    {shownChild : PatternCore.PatternChild}
    (childFollows : ChildFollows store child shownChild)
    (used : List Bool)
    {bindings : MatchBindings}
    {shown : PatternCore.MatchBindings}
    (bindingsShow : BindingsShow store bindings shown)
    {assignRest : List Bool → MatchBindings → ℕ → Search Assigned}
    {shownRest :
      List Bool → PatternCore.MatchBindings → ℕ → PatternCore.Search PatternCore.Assigned}
    (restFollows :
      ∀ used kept shownKept attempts,
        BindingsShow store kept shownKept →
        Related (AssignedShows store) (assignRest used kept attempts)
          (shownRest used shownKept attempts).result)
    {pool : List (ℕ × ℕ)}
    {shownPool : List (AtomTree × ℕ)}
    (poolShows :
      List.Forall₂ (fun entry shownEntry =>
        Shows store entry.1 shownEntry.1 ∧ entry.2 = shownEntry.2) pool shownPool)
    (attempts : ℕ) :
    Related (AssignedShows store)
      (tryPositions child used bindings assignRest pool attempts)
      (PatternCore.tryPositions shownChild used shown shownRest shownPool attempts).result := by
  induction poolShows generalizing attempts with
  | nil =>
      exact .ok ⟨.none, rfl⟩
  | @cons entry shownEntry others shownOthers entryShows _ inductionHypothesis =>
      obtain ⟨target, position⟩ := entry
      obtain ⟨tree, samePosition⟩ := shownEntry
      obtain ⟨targetShows, rfl⟩ := entryShows
      rw [tryPositions, PatternCore.tryPositions]
      by_cases isUsed : used[position]? ≠ some false
      · rw [if_pos isUsed, if_pos isUsed]
        exact inductionHypothesis attempts
      · rw [if_neg isUsed, if_neg isUsed]
        by_cases exhausted : attempts = 0
        · rw [if_pos exhausted, if_pos exhausted]
          exact .ok ⟨.none, rfl⟩
        · rw [if_neg exhausted, if_neg exhausted, RelatedOutcomes.result_bind]
          refine (childFollows.attempt targetShows bindingsShow).bind ?_
          intro result shownResult resultsShow
          cases resultsShow with
          | none =>
              exact inductionHypothesis (attempts - 1)
          | some keptShows =>
              dsimp only
              rw [RelatedOutcomes.result_bind]
              refine (restFollows _ _ _ _ keptShows).bind ?_
              rintro ⟨assigned, left⟩ ⟨shownAssigned, shownLeft⟩ ⟨assignedShows, sameLeft⟩
              dsimp only at assignedShows sameLeft ⊢
              subst shownLeft
              cases assignedShows with
              | none =>
                  exact inductionHypothesis left
              | some foundShows =>
                  exact .ok ⟨.some foundShows, rfl⟩

/-- The positions of a pool are those of its trees. -/
theorem zipIdx_shows
    {pool : List ℕ}
    {trees : List AtomTree}
    (poolShows : List.Forall₂ (Shows store) pool trees)
    (start : ℕ) :
    List.Forall₂
      (fun entry shownEntry => Shows store entry.1 shownEntry.1 ∧ entry.2 = shownEntry.2)
      (pool.zipIdx start) (trees.zipIdx start) := by
  induction poolShows generalizing start with
  | nil =>
      exact .nil
  | cons targetShows _ inductionHypothesis =>
      exact .cons ⟨targetShows, rfl⟩ (inductionHypothesis (start + 1))

/-- `assign_normals` follows the trees. -/
theorem assignNormals_follows
    {pool : List ℕ}
    {trees : List AtomTree}
    (poolShows : List.Forall₂ (Shows store) pool trees)
    {normals : List PatternChild}
    {shownNormals : List PatternCore.PatternChild}
    (normalsFollow : List.Forall₂ (ChildFollows store) normals shownNormals)
    (used : List Bool)
    {bindings : MatchBindings}
    {shown : PatternCore.MatchBindings}
    (bindingsShow : BindingsShow store bindings shown)
    (attempts : ℕ) :
    Related (AssignedShows store) (assignNormals pool normals used bindings attempts)
      (PatternCore.assignNormals trees shownNormals used shown attempts).result := by
  induction normalsFollow generalizing used bindings shown attempts with
  | nil =>
      exact .ok ⟨.some ⟨bindingsShow, rfl⟩, rfl⟩
  | cons childFollows _ inductionHypothesis =>
      rw [assignNormals, PatternCore.assignNormals]
      refine tryPositions_follows childFollows used bindingsShow ?_
        (zipIdx_shows poolShows 0) attempts
      intro usedThen kept shownKept attemptsLeft keptShows
      exact inductionHypothesis usedThen keptShows attemptsLeft

/-- The loop over positional children follows the trees. -/
theorem matchInOrder_follows
    {after : MatchBindings → Search (Option MatchBindings)}
    {shownAfter :
      PatternCore.MatchBindings → PatternCore.Search (Option PatternCore.MatchBindings)}
    (afterFollows :
      ∀ {bindings shownBindings},
        BindingsShow store bindings shownBindings →
        Follows store (after bindings) (shownAfter shownBindings))
    {children : List PatternChild}
    {shownChildren : List PatternCore.PatternChild}
    (childrenFollow : List.Forall₂ (ChildFollows store) children shownChildren)
    {targets : List ℕ}
    {trees : List AtomTree}
    (targetsShow : List.Forall₂ (Shows store) targets trees)
    {bindings : MatchBindings}
    {shown : PatternCore.MatchBindings}
    (bindingsShow : BindingsShow store bindings shown) :
    Follows store (matchInOrder after children targets bindings)
      (PatternCore.matchInOrder shownAfter shownChildren trees shown) := by
  induction childrenFollow generalizing targets trees bindings shown with
  | nil =>
      rw [matchInOrder, PatternCore.matchInOrder]
      · exact afterFollows bindingsShow
      · nofun
      · nofun
  | cons childFollows _ inductionHypothesis =>
      cases targetsShow with
      | nil =>
          exact afterFollows bindingsShow
      | cons targetShows othersShow =>
          rw [matchInOrder, PatternCore.matchInOrder, PatternCore.PatternChild.followedBy,
            Follows, RelatedOutcomes.result_bind]
          refine (childFollows.attempt targetShows bindingsShow).bind ?_
          intro result shownResult resultsShow
          cases resultsShow with
          | none =>
              exact follows_none rfl
          | some keptShows =>
              dsimp only
              rw [result_noteIfNone]
              exact inductionHypothesis othersShow keptShows

section WellFormed

variable (wellFormed : store.WellFormed)

include wellFormed

/-- Views are equal when their trees are. -/
theorem slotsEqual_iff_of_shows
    {first second : ℕ}
    {tree other : AtomTree}
    (firstShows : Shows store first tree)
    (secondShows : Shows store second other) :
    store.slotsEqual first second = true ↔ tree = other := by
  rw [AtomStore.slotsEqual, beq_iff_eq,
    AtomStore.compareSlots_eq wellFormed firstShows.inside secondShows.inside,
    AtomTree.compare_eq_iff, firstShows.tree_eq, secondShows.tree_eq]

/-- Sorted views show the sorted trees. -/
theorem sortSlots_shows
    {slots : List ℕ}
    {trees : List AtomTree}
    (slotsShow : List.Forall₂ (Shows store) slots trees) :
    List.Forall₂ (Shows store) (sortSlots store slots)
      (trees.insertionSort (· ≤ ·)) := by
  obtain ⟨inside, rfl⟩ := forall₂_shows_iff.mp slotsShow
  refine forall₂_shows_iff.mpr ⟨?_, AtomStore.map_sort wellFormed inside⟩
  intro slot member
  exact inside slot ((List.mem_insertionSort _).mp member)

/-- `std::equal` compares the trees. -/
theorem all_slotsEqual_iff
    {lefts rights : List ℕ}
    {leftTrees rightTrees : List AtomTree}
    (leftsShow : List.Forall₂ (Shows store) lefts leftTrees)
    (rightsShow : List.Forall₂ (Shows store) rights rightTrees)
    (sameLength : lefts.length = rights.length) :
    ((lefts.zip rights).all fun pair => store.slotsEqual pair.1 pair.2) = true ↔
      leftTrees = rightTrees := by
  induction leftsShow generalizing rights rightTrees with
  | nil =>
      rw [List.length_nil, eq_comm, List.length_eq_zero_iff] at sameLength
      subst rights
      cases rightsShow
      simp
  | cons leftShows _ inductionHypothesis =>
      cases rightsShow with
      | nil =>
          cases sameLength
      | cons rightShows othersShow =>
          rw [List.zip_cons_cons, List.all_cons, Bool.and_eq_true,
            slotsEqual_iff_of_shows wellFormed leftShows rightShows,
            inductionHypothesis othersShow (Nat.succ.inj sameLength), List.cons.injEq]

/-- `same_multiset` gives what it gives on trees. -/
theorem sameMultiset_eq
    {lefts rights : List ℕ}
    {leftTrees rightTrees : List AtomTree}
    (leftsShow : List.Forall₂ (Shows store) lefts leftTrees)
    (rightsShow : List.Forall₂ (Shows store) rights rightTrees) :
    sameMultiset store lefts rights = PatternCore.sameMultiset leftTrees rightTrees := by
  rw [sameMultiset, PatternCore.sameMultiset, leftsShow.length_eq, rightsShow.length_eq]
  by_cases sameLength : leftTrees.length = rightTrees.length
  · have sortedLength :
        (sortSlots store lefts).length = (sortSlots store rights).length := by
      rw [sortSlots, sortSlots, List.length_insertionSort, List.length_insertionSort,
        leftsShow.length_eq, rightsShow.length_eq, sameLength]
    have sorted := all_slotsEqual_iff wellFormed (sortSlots_shows wellFormed leftsShow)
      (sortSlots_shows wellFormed rightsShow) sortedLength
    rw [Bool.eq_iff_iff, Bool.and_eq_true, Bool.and_eq_true, sorted, beq_iff_eq, beq_iff_eq]
  · rw [beq_false_of_ne sameLength, Bool.false_and, Bool.false_and]

/-- `bind_sequence` follows the trees. -/
theorem bindSequence_follows
    (context : CaptureContext)
    (sequence : SequenceWildcard)
    {captured : List ℕ}
    {trees : List AtomTree}
    (capturedShow : List.Forall₂ (Shows store) captured trees)
    {bindings : MatchBindings}
    {shown : PatternCore.MatchBindings}
    (bindingsShow : BindingsShow store bindings shown) :
    Follows store (bindSequence store sequence captured bindings)
      (PatternCore.bindSequence context sequence trees shown) := by
  have noneCaptured : captured = [] ↔ trees = [] := by
    rw [← List.length_eq_zero_iff, capturedShow.length_eq, List.length_eq_zero_iff]
  simp only [bindSequence, PatternCore.bindSequence, noneCaptured]
  split
  · exact follows_none rfl
  · have found := lookup_shows bindingsShow sequence.symbol
    generalize bindings.lookup sequence.symbol = entry at found ⊢
    generalize shown.lookup sequence.symbol = shownEntry at found ⊢
    cases found with
    | none =>
        refine follows_some ?_ rfl
        exact .cons ⟨rfl, .sequence capturedShow⟩ bindingsShow
    | some boundShows =>
        cases boundShows with
        | atom _ =>
            exact follows_none rfl
        | sequence elementsShow =>
            dsimp only
            rw [sameMultiset_eq wellFormed elementsShow capturedShow]
            split
            · refine follows_some bindingsShow ?_
              simp only [RelatedOutcomes.result_bind, RelatedOutcomes.result_note]
              rfl
            · refine follows_none ?_
              simp only [RelatedOutcomes.result_bind, RelatedOutcomes.result_note]
              rfl

/-- The case of a wildcard for one atom follows the trees. -/
theorem bindAtom_follows
    (symbol : Symbol)
    {target : ℕ}
    {tree : AtomTree}
    (targetShows : Shows store target tree)
    {bindings : MatchBindings}
    {shown : PatternCore.MatchBindings}
    (bindingsShow : BindingsShow store bindings shown) :
    Follows store (bindAtom store symbol target bindings)
      (PatternCore.bindAtom symbol tree shown) := by
  rw [bindAtom, PatternCore.bindAtom]
  have found := lookup_shows bindingsShow symbol
  generalize bindings.lookup symbol = entry at found ⊢
  generalize shown.lookup symbol = shownEntry at found ⊢
  cases found with
  | none =>
      refine follows_some ?_ rfl
      exact .cons ⟨rfl, .atom targetShows⟩ bindingsShow
  | some boundShows =>
      cases boundShows with
      | sequence _ =>
          exact follows_none rfl
      | atom atomShows =>
          simp only [slotsEqual_iff_of_shows wellFormed atomShows targetShows]
          split
          · refine follows_some bindingsShow ?_
            simp only [RelatedOutcomes.result_bind, RelatedOutcomes.result_note]
            rfl
          · refine follows_none ?_
            simp only [RelatedOutcomes.result_bind, RelatedOutcomes.result_note]
            rfl

/-- `match_commutative` follows the trees. -/
theorem matchCommutative_follows
    (table : Snapshot)
    {children : List PatternChild}
    {shownChildren : List PatternCore.PatternChild}
    (childrenFollow : List.Forall₂ (ChildFollows store) children shownChildren)
    {targets : List ℕ}
    {trees : List AtomTree}
    (targetsShow : List.Forall₂ (Shows store) targets trees)
    {bindings : MatchBindings}
    {shown : PatternCore.MatchBindings}
    (bindingsShow : BindingsShow store bindings shown) :
    Follows store (matchCommutative table store children targets bindings)
      (PatternCore.matchCommutative table shownChildren trees shown) := by
  rw [matchCommutative, PatternCore.matchCommutative, Follows, RelatedOutcomes.result_bind]
  refine (splitSequenceWildcard_follows table childrenFollow none).bind ?_
  rintro ⟨normals, sequence⟩ ⟨shownNormals, shownSequence⟩ ⟨normalsFollow, sameSequence⟩
  dsimp only at normalsFollow sameSequence ⊢
  subst shownSequence
  rw [normalsFollow.length_eq, targetsShow.length_eq]
  by_cases tooMany : sequence.isNone ∧ shownNormals.length ≠ trees.length
  · rw [if_pos tooMany, if_pos tooMany]
    exact follows_none rfl
  · rw [if_neg tooMany, if_neg tooMany]
    by_cases tooFew : sequence.isSome ∧ trees.length < shownNormals.length
    · rw [if_pos tooFew, if_pos tooFew]
      exact follows_none rfl
    · rw [if_neg tooFew, if_neg tooFew, RelatedOutcomes.result_bind]
      refine (assignNormals_follows targetsShow normalsFollow _ bindingsShow _).bind ?_
      rintro ⟨assigned, left⟩ ⟨shownAssigned, shownLeft⟩ ⟨assignedShows, -⟩
      dsimp only at assignedShows ⊢
      cases assignedShows with
      | none =>
          exact follows_none rfl
      | @some found shownFound foundShows =>
          obtain ⟨kept, used⟩ := found
          obtain ⟨shownKept, shownUsed⟩ := shownFound
          obtain ⟨keptShows, sameUsed⟩ := foundShows
          dsimp only at keptShows sameUsed
          subst shownUsed
          cases sequence with
          | none =>
              exact follows_some keptShows rfl
          | some wildcard =>
              dsimp only
              rw [result_noteIfNone]
              exact bindSequence_follows wellFormed .commutative wildcard
                (leftover_shows targetsShow used) keptShows

/-- `match_positional_with_sequence` follows the trees. -/
theorem matchPositionalWithSequence_follows
    (table : Snapshot)
    {children : List PatternChild}
    {shownChildren : List PatternCore.PatternChild}
    (childrenFollow : List.Forall₂ (ChildFollows store) children shownChildren)
    {targets : List ℕ}
    {trees : List AtomTree}
    (targetsShow : List.Forall₂ (Shows store) targets trees)
    {bindings : MatchBindings}
    {shown : PatternCore.MatchBindings}
    (bindingsShow : BindingsShow store bindings shown) :
    Follows store (matchPositionalWithSequence table store children targets bindings)
      (PatternCore.matchPositionalWithSequence table shownChildren trees shown) := by
  rw [matchPositionalWithSequence, PatternCore.matchPositionalWithSequence, Follows,
    RelatedOutcomes.result_bind]
  refine (findSequenceWildcard_follows table childrenFollow 0 none).bind ?_
  rintro found _ rfl
  rw [childrenFollow.length_eq, targetsShow.length_eq]
  cases found with
  | none =>
      dsimp only
      by_cases differ : shownChildren.length ≠ trees.length
      · rw [if_pos differ, if_pos differ]
        exact follows_none rfl
      · rw [if_neg differ, if_neg differ]
        refine matchInOrder_follows ?_ childrenFollow targetsShow bindingsShow
        intro kept shownKept keptShows
        exact follows_some keptShows rfl
  | some place =>
      obtain ⟨sequence, position⟩ := place
      dsimp only
      by_cases tooFew : trees.length < position + (shownChildren.length - position - 1)
      · rw [if_pos tooFew, if_pos tooFew]
        exact follows_none rfl
      · rw [if_neg tooFew, if_neg tooFew]
        split
        · exact follows_none rfl
        · refine matchInOrder_follows ?_ (List.forall₂_take position childrenFollow)
            (List.forall₂_take position targetsShow) bindingsShow
          intro kept shownKept keptShows
          refine matchInOrder_follows ?_ (List.forall₂_drop _ childrenFollow)
            (List.forall₂_drop _ targetsShow) keptShows
          intro suffixKept shownSuffixKept suffixShows
          exact bindSequence_follows wellFormed .positional sequence
            (List.forall₂_take _ (List.forall₂_drop position targetsShow)) suffixShows

/-- What is read through a view of a slot. -/
structure Reads (store : AtomStore) (slot : ℕ) (tree : AtomTree) : Prop where
  tag : store.tag slot = tree.tag
  children : List.Forall₂ (Shows store) (store.children slot) tree.children
  number : ∀ value, tree = .num value → store.asNum slot = value
  variableSymbol : ∀ symbol, tree = .var symbol → store.symbolOf slot = symbol
  head : ∀ head arguments, tree = .func head arguments → store.symbolOf slot = head

/-- Views read the node of the tree. -/
theorem Shows.reads
    {slot : ℕ}
    {tree : AtomTree}
    (shows_ : Shows store slot tree) :
    Reads store slot tree := by
  obtain ⟨inside, rfl⟩ := shows_
  have node := AtomStore.tree_eq_treeOfNode wellFormed inside
  rw [AtomStore.treeOfNode] at node
  refine ⟨(AtomStore.tag_tree wellFormed inside).symm, ?_, ?_, ?_, ?_⟩
  · refine forall₂_shows_iff.mpr ⟨?_, (AtomStore.children_tree wellFormed inside).symm⟩
    intro child member
    exact (AtomStore.child_lt wellFormed inside member).trans inside
  · intro value same
    rw [node] at same
    split at same <;> cases same
    rfl
  · intro symbol same
    rw [node] at same
    split at same <;> cases same
    rfl
  · intro head arguments same
    rw [node] at same
    split at same <;> cases same
    rfl

omit wellFormed in
/-- Children that are matched as on trees. -/
theorem patternChildren_follows
    {table : Snapshot}
    {patterns : List AtomTree}
    (each :
      ∀ pattern ∈ patterns,
        ChildFollows store ⟨pattern, matchImpl table store pattern⟩
          ⟨pattern, PatternCore.matchImpl table pattern⟩) :
    List.Forall₂ (ChildFollows store) (patternChildren table store patterns)
      (PatternCore.patternChildren table patterns) := by
  induction patterns with
  | nil =>
      exact .nil
  | cons pattern rest inductionHypothesis =>
      rw [patternChildren, PatternCore.patternChildren]
      refine .cons (each pattern (by simp)) ?_
      exact inductionHypothesis fun later member => each later (by simp [member])

/-- `match_impl` follows the trees. -/
theorem matchImpl_follows
    (table : Snapshot)
    (pattern : AtomTree) :
    ChildFollows store ⟨pattern, matchImpl table store pattern⟩
      ⟨pattern, PatternCore.matchImpl table pattern⟩ := by
  refine ⟨rfl, ?_⟩
  intro target tree bindings shown targetShows bindingsShow
  dsimp only
  induction pattern generalizing target tree bindings shown with
  | num value =>
      have reads := targetShows.reads wellFormed
      cases tree with
      | num other =>
          simp only [matchImpl, PatternCore.matchImpl, reads.tag, reads.number other rfl,
            AtomTree.tag, true_and]
          split
          · exact follows_some bindingsShow rfl
          · exact follows_none rfl
      | _ =>
          simp only [matchImpl, reads.tag, AtomTree.tag, reduceCtorEq, false_and, if_false]
          exact follows_none rfl
  | var symbol =>
      have reads := targetShows.reads wellFormed
      rw [matchImpl, PatternCore.matchImpl.eq_def]
      dsimp only
      cases wildcardKind table symbol with
      | some kind =>
          cases kind with
          | single =>
              exact bindAtom_follows wellFormed symbol targetShows bindingsShow
          | atLeastOne =>
              exact .error _
          | anyCount =>
              exact .error _
      | none =>
          cases tree with
          | var other =>
              simp only [reads.tag, reads.variableSymbol other rfl, AtomTree.tag, true_and]
              split
              · exact follows_some bindingsShow rfl
              · exact follows_none rfl
          | _ =>
              simp only [reads.tag, AtomTree.tag, reduceCtorEq, false_and, if_false]
              exact follows_none rfl
  | add patterns inductionHypothesis =>
      have reads := targetShows.reads wellFormed
      have childrenFollow := patternChildren_follows fun pattern member =>
        ⟨rfl, inductionHypothesis pattern member⟩
      cases tree with
      | add targets =>
          simp only [matchImpl, PatternCore.matchImpl, reads.tag, AtomTree.tag, if_true]
          exact matchCommutative_follows wellFormed table childrenFollow reads.children
            bindingsShow
      | _ =>
          simp only [matchImpl, reads.tag, AtomTree.tag, reduceCtorEq, if_false]
          exact follows_none rfl
  | mul patterns inductionHypothesis =>
      have reads := targetShows.reads wellFormed
      have childrenFollow := patternChildren_follows fun pattern member =>
        ⟨rfl, inductionHypothesis pattern member⟩
      cases tree with
      | mul targets =>
          simp only [matchImpl, PatternCore.matchImpl, reads.tag, AtomTree.tag, if_true]
          exact matchCommutative_follows wellFormed table childrenFollow reads.children
            bindingsShow
      | _ =>
          simp only [matchImpl, reads.tag, AtomTree.tag, reduceCtorEq, if_false]
          exact follows_none rfl
  | pow base exponent baseHypothesis exponentHypothesis =>
      have reads := targetShows.reads wellFormed
      cases tree with
      | pow treeBase treeExponent =>
          have childrenShow : List.Forall₂ _ (store.children target) [treeBase, treeExponent] :=
            reads.children
          simp only [matchImpl, PatternCore.matchImpl, reads.tag, AtomTree.tag,
            PatternCore.PatternChild.followedBy]
          generalize store.children target = slots at childrenShow ⊢
          cases childrenShow with
          | cons baseShows rest =>
              cases rest with
              | cons exponentShows none =>
                  cases none
                  rw [Follows, RelatedOutcomes.result_bind]
                  refine (baseHypothesis baseShows bindingsShow).bind ?_
                  intro result shownResult resultsShow
                  cases resultsShow with
                  | none =>
                      exact follows_none rfl
                  | some keptShows =>
                      dsimp only
                      rw [result_noteIfNone]
                      exact exponentHypothesis exponentShows keptShows
      | _ =>
          simp only [matchImpl, reads.tag, AtomTree.tag]
          exact follows_none rfl
  | func head patterns inductionHypothesis =>
      have reads := targetShows.reads wellFormed
      have childrenFollow := patternChildren_follows fun pattern member =>
        ⟨rfl, inductionHypothesis pattern member⟩
      cases tree with
      | func treeHead targets =>
          simp only [matchImpl, PatternCore.matchImpl, reads.tag, reads.head treeHead targets rfl,
            AtomTree.tag, ne_eq, not_true_eq_false, false_or]
          split
          · exact follows_none rfl
          · split
            · exact matchCommutative_follows wellFormed table childrenFollow reads.children
                bindingsShow
            · exact matchPositionalWithSequence_follows wellFormed table childrenFollow
                reads.children bindingsShow
      | _ =>
          simp only [matchImpl, reads.tag, AtomTree.tag, ne_eq, reduceCtorEq, not_false_eq_true,
            true_or, if_true]
          exact follows_none rfl

/-- `match` follows the trees. -/
theorem matchAtoms_follows
    (table : Snapshot)
    (pattern : AtomTree)
    {target : ℕ}
    {tree : AtomTree}
    (targetShows : Shows store target tree) :
    Related (Option.Rel (BindingsShow store)) (matchAtoms table store pattern target)
      (PatternCore.matchAtoms table pattern tree) :=
  (matchImpl_follows wellFormed table pattern).attempt targetShows .nil

end WellFormed

end Slots

end PatternCore
