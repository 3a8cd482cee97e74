import Stocas.Pattern.Search

namespace PatternCore

open AtomCore (AtomTree)
open RecordedOutcomes (Run run_bind run_pure run_fail)
open SymbolTable (Snapshot Symbol)

/-!
# What a match means

Instantiating the pattern by the bindings of a match gives the target, up to the
order of sums, products and `Symmetric` calls.  The exception is a sequence
wildcard that is met again among positional arguments: its list is compared with
the new one as a multiset there too.
-/

/-- A list met again among positional arguments has the order of the bound one. -/
def MatchEvent.InOrder (table : Snapshot) : MatchEvent → Prop
  | .repeatedSequence .positional bound captured =>
      bound.Perm captured →
      bound.map (arrange table) = captured.map (arrange table)
  | _ => True

instance (table : Snapshot) (event : MatchEvent) :
    Decidable (event.InOrder table) := by
  cases event with
  | repeatedSequence context bound captured =>
      cases context with
      | commutative =>
          exact instDecidableTrue
      | positional =>
          exact inferInstanceAs (Decidable (_ → _))
  | repeatedAtom | exhausted | dropped | captureDropped =>
      exact instDecidableTrue

/-- Under these bindings and any later ones the pattern gives the target. -/
def Fits
    (table : Snapshot)
    (bindings : MatchBindings)
    (pattern target : AtomTree) : Prop :=
  ∀ later,
    bindings.Extends later →
    EqualUpToOrder table (later.substitution.instantiate table pattern) target

/-- `match_impl` on this child delivers bindings that fit. -/
def ChildSound (table : Snapshot) (child : PatternChild) : Prop :=
  ∀ (target : AtomTree) (bindings after : MatchBindings),
    Run (MatchEvent.InOrder table) (child.attempt target bindings) (some after) →
    bindings.Extends after ∧ Fits table after child.tree target

variable {table : Snapshot}

/-- What fits still fits under later bindings. -/
theorem Fits.later
    {bindings after : MatchBindings}
    {pattern target : AtomTree}
    (fits : Fits table bindings pattern target)
    (extends_ : bindings.Extends after) :
    Fits table after pattern target :=
  fun later growth => fits later (extends_.trans growth)

/-- Children that fit one by one give the targets in their order. -/
theorem map_arrange_of_fits
    {bindings later : MatchBindings}
    (growth : bindings.Extends later)
    {children : List PatternChild}
    {targets : List AtomTree}
    (all :
      List.Forall₂ (fun child target => Fits table bindings child.tree target)
        children targets) :
    (children.map fun child =>
        later.substitution.instantiate table child.tree).map (arrange table) =
      targets.map (arrange table) := by
  induction all with
  | nil =>
      rfl
  | cons fits _ inductionHypothesis =>
      simp only [List.map_cons, inductionHypothesis]
      rw [show arrange table _ = arrange table _ from fits later growth]

/-- A bound sequence wildcard stands for its list. -/
theorem substitution_sequence
    {bindings : MatchBindings}
    {symbol : Symbol}
    {bound : List AtomTree}
    (found : bindings.lookup symbol = some (.sequence bound)) :
    bindings.substitution.sequence symbol = bound := by
  simp only [MatchBindings.substitution, found]

/-- Fitting is kept by later bindings. -/
theorem growth_fits : Growth MatchBindings.Extends (Fits table) where
  refl := .refl
  trans := .trans
  later := Fits.later

/-- Matching without order gives the targets as a multiset. -/
theorem matchCommutative_sound
    {good : MatchEvent → Prop}
    {children : List PatternChild}
    (sound :
      ∀ child ∈ children,
        ChildDelivers good MatchBindings.Extends (Fits table) child)
    {targets : List AtomTree}
    {bindings after : MatchBindings}
    (ran :
      Run good (matchCommutative table children targets bindings) (some after)) :
    bindings.Extends after ∧
      ∀ later,
        after.Extends later →
        SameMultiset table
          (later.substitution.instantiateAll table
            (children.map PatternChild.tree))
          targets := by
  obtain ⟨normals, sequence, assigned, matched, captured, splitRan,
    assignedExtends, assigns⟩ := matchCommutative_delivers growth_fits sound ran
  have split := splitAs_of_run splitRan
  have ended := assigns.ended
  cases sequence with
  | none =>
      obtain ⟨nothing, rfl⟩ := ended
      refine ⟨assignedExtends, ?_⟩
      intro later growth
      have permuted := assigns.permuted
      rw [nothing, List.append_nil] at permuted
      have instantiated := split.instantiated later.substitution
      rw [splicedBy, List.append_nil] at instantiated
      refine (instantiated.map (arrange table)).trans ?_
      rw [map_arrange_of_fits growth assigns.related]
      exact (permuted.map (arrange table)).symm
  | some sequence =>
      obtain ⟨captureExtends, bound, isBound, same⟩ := run_bindSequence_some ended
      refine ⟨assignedExtends.trans captureExtends, ?_⟩
      intro later growth
      have boundPerm : bound.Perm captured := by
        rcases same with same | ⟨same, -⟩
        · rw [same]
        · exact same
      have instantiated := split.instantiated later.substitution
      rw [splicedBy, substitution_sequence (growth _ _ isBound)] at instantiated
      refine (instantiated.map (arrange table)).trans ?_
      rw [List.map_append,
        map_arrange_of_fits (captureExtends.trans growth) assigns.related,
        ← List.map_append]
      refine List.Perm.map _ ?_
      exact (boundPerm.append_left matched).trans assigns.permuted.symm

/-- Children without sequence wildcards that fit, among others. -/
theorem map_arrange_normal
    {bindings later : MatchBindings}
    (growth : bindings.Extends later)
    {children : List PatternChild}
    (normal : ∀ child ∈ children, sequenceWildcard? table child.tree = none)
    {targets : List AtomTree}
    (fits :
      List.Forall₂ (fun child target => Fits table bindings child.tree target)
        children targets) :
    (later.substitution.instantiateAll table
        (children.map PatternChild.tree)).map (arrange table) =
      targets.map (arrange table) := by
  rw [instantiateAll_children normal]
  exact map_arrange_of_fits growth fits

/-- Children around the wildcard, with the list that it stands for. -/
theorem FoundAt.instantiated
    {children : List PatternChild}
    {sequence : SequenceWildcard}
    {position : Nat}
    (found : FoundAt table children sequence position)
    (substitution : Substitution) :
    substitution.instantiateAll table (children.map PatternChild.tree) =
      substitution.instantiateAll table
          ((children.take position).map PatternChild.tree) ++
        (substitution.sequence sequence.symbol ++
          substitution.instantiateAll table
            ((children.drop (position + 1)).map PatternChild.tree)) := by
  obtain ⟨child, isChild, isWildcard⟩ := found.here
  have whole :
      children =
        children.take position ++ child :: children.drop (position + 1) := by
    obtain ⟨inside, atPosition⟩ := List.getElem?_eq_some_iff.mp isChild
    rw [← atPosition, ← List.drop_eq_getElem_cons inside,
      List.take_append_drop]
  conv =>
    lhs
    rw [whole]
  rw [List.map_append, instantiateAll_append, List.map_cons,
    Substitution.instantiateAll, isWildcard]

/-- The list of targets in three parts. -/
theorem targets_in_parts
    (targets : List AtomTree)
    (prefixCount middleCount : Nat) :
    targets =
      targets.take prefixCount ++
        ((targets.drop prefixCount).take middleCount ++
          targets.drop (prefixCount + middleCount)) := by
  rw [← List.drop_drop, List.take_append_drop, List.take_append_drop]

/-- Matching in order gives the targets in their order. -/
theorem matchPositional_sound
    {children : List PatternChild}
    (sound : ∀ child ∈ children, ChildSound table child)
    {targets : List AtomTree}
    {bindings after : MatchBindings}
    (ran :
      Run (MatchEvent.InOrder table)
        (matchPositionalWithSequence table children targets bindings)
        (some after)) :
    bindings.Extends after ∧
      ∀ later,
        after.Extends later →
        (later.substitution.instantiateAll table
            (children.map PatternChild.tree)).map (arrange table) =
          targets.map (arrange table) := by
  obtain ⟨outcome, findRan, rest⟩ := run_bind.mp ran
  rcases run_findSequenceWildcard findRan with
    ⟨isNone, normal⟩ | ⟨-, sequence, position, isSome, found⟩
  · subst outcome
    simp only at rest
    split_ifs at rest with sameLength
    · cases run_pure.mp rest
    · obtain ⟨middle, middleExtends, fits, ended⟩ :=
        matchInOrder_delivers growth_fits sound (not_not.mp sameLength) rest
      cases run_pure.mp ended
      exact ⟨middleExtends, fun later growth =>
        map_arrange_normal growth normal fits⟩
  · subst outcome
    simp only [Nat.zero_add] at rest
    split_ifs at rest with tooFew emptyMiddle
    · cases run_pure.mp rest
    · cases run_pure.mp rest
    · have inside := found.inside
      have prefixLength :
          (children.take position).length =
            (targets.take position).length := by
        simp only [List.length_take]
        omega
      have suffixLength :
          (children.drop (position + 1)).length =
            (targets.drop
              (position +
                (targets.length - position -
                  (children.length - position - 1)))).length := by
        simp only [List.length_drop]
        omega
      obtain ⟨beforeMiddle, prefixExtends, prefixFits, suffixRan⟩ :=
        matchInOrder_delivers growth_fits
          (fun child member => sound child (List.mem_of_mem_take member))
          prefixLength rest
      obtain ⟨afterSuffix, suffixExtends, suffixFits, captureRan⟩ :=
        matchInOrder_delivers growth_fits
          (fun child member => sound child (List.mem_of_mem_drop member))
          suffixLength suffixRan
      obtain ⟨captureExtends, bound, isBound, same⟩ :=
        run_bindSequence_some captureRan
      have boundSame :
          bound.map (arrange table) =
            ((targets.drop position).take
              (targets.length - position -
                (children.length - position - 1))).map (arrange table) := by
        rcases same with same | ⟨permuted, inOrder⟩
        · rw [same]
        · exact inOrder permuted
      refine ⟨prefixExtends.trans (suffixExtends.trans captureExtends), ?_⟩
      intro later growth
      have afterCapture := captureExtends.trans growth
      conv =>
        rhs
        rw [targets_in_parts targets position
          (targets.length - position - (children.length - position - 1))]
      rw [found.instantiated later.substitution,
        substitution_sequence (growth _ _ isBound), List.map_append,
        List.map_append, List.map_append, List.map_append, boundSame,
        map_arrange_normal (suffixExtends.trans afterCapture) found.before
          prefixFits,
        map_arrange_normal afterCapture found.after suffixFits]

/-- Every child of a pattern comes with `match_impl` for it. -/
theorem patternChildren_eq_map
    (trees : List AtomTree) :
    patternChildren table trees =
      trees.map fun tree => ⟨tree, matchImpl table tree⟩ := by
  induction trees with
  | nil =>
      rfl
  | cons tree rest inductionHypothesis =>
      simp only [patternChildren, inductionHypothesis, List.map_cons]

/-- The trees of the children are those of the pattern. -/
@[simp] theorem map_tree_patternChildren
    (trees : List AtomTree) :
    (patternChildren table trees).map PatternChild.tree = trees := by
  rw [patternChildren_eq_map, List.map_map]
  exact List.map_id trees

/-- A property of `match_impl` on every child. -/
theorem forall_patternChildren
    {property : PatternChild → Prop}
    {trees : List AtomTree}
    (all : ∀ tree ∈ trees, property ⟨tree, matchImpl table tree⟩) :
    ∀ child ∈ patternChildren table trees, property child := by
  rw [patternChildren_eq_map]
  intro child member
  obtain ⟨tree, treeMember, rfl⟩ := List.mem_map.mp member
  exact all tree treeMember

/-- `match_impl` delivers bindings that fit. -/
theorem matchImpl_sound
    (pattern : AtomTree) :
    ChildSound table ⟨pattern, matchImpl table pattern⟩ := by
  induction pattern with
  | num value =>
      intro target bindings after ran
      cases target with
      | num other =>
          have outcome := run_pure.mp ran
          split_ifs at outcome with same
          cases outcome
          subst other
          exact ⟨.refl _, fun _ _ => rfl⟩
      | var | add | mul | pow | func =>
          cases run_pure.mp ran
  | var symbol =>
      intro target bindings after ran
      simp only [matchImpl] at ran
      cases kind : wildcardKind table symbol with
      | none =>
          rw [kind] at ran
          cases target with
          | var other =>
              have outcome := run_pure.mp ran
              split_ifs at outcome with same
              cases outcome
              subst other
              refine ⟨.refl _, fun later _ => ?_⟩
              simp only [Substitution.instantiate, kind]
              rfl
          | num | add | mul | pow | func =>
              cases run_pure.mp ran
      | some kind' =>
          rw [kind] at ran
          cases kind' with
          | single =>
              obtain ⟨growth, isBound⟩ := run_bindAtom_some ran
              refine ⟨growth, fun later laterGrowth => ?_⟩
              simp only [Substitution.instantiate, kind,
                MatchBindings.substitution, laterGrowth _ _ isBound]
              rfl
          | atLeastOne | anyCount =>
              exact (run_fail ran).elim
  | add terms inductionHypothesis =>
      intro target bindings after ran
      cases target with
      | add targets =>
          obtain ⟨growth, fits⟩ :=
            matchCommutative_sound (forall_patternChildren inductionHypothesis)
              ran
          refine ⟨growth, fun later laterGrowth => equal_add_iff.mpr ?_⟩
          simpa using fits later laterGrowth
      | num | var | mul | pow | func =>
          cases run_pure.mp ran
  | mul factors inductionHypothesis =>
      intro target bindings after ran
      cases target with
      | mul targets =>
          obtain ⟨growth, fits⟩ :=
            matchCommutative_sound (forall_patternChildren inductionHypothesis)
              ran
          refine ⟨growth, fun later laterGrowth => equal_mul_iff.mpr ?_⟩
          simpa using fits later laterGrowth
      | num | var | add | pow | func =>
          cases run_pure.mp ran
  | pow base exponent baseHypothesis exponentHypothesis =>
      intro target bindings after ran
      cases target with
      | pow targetBase targetExponent =>
          obtain ⟨kept, baseRan, exponentRan⟩ := run_followedBy_some.mp ran
          obtain ⟨baseGrowth, baseFits⟩ := baseHypothesis _ _ _ baseRan
          obtain ⟨exponentGrowth, exponentFits⟩ :=
            exponentHypothesis _ _ _ exponentRan
          refine ⟨baseGrowth.trans exponentGrowth, fun later growth => ?_⟩
          exact equal_pow_iff.mpr
            ⟨baseFits later (exponentGrowth.trans growth),
              exponentFits later growth⟩
      | num | var | add | mul | func =>
          cases run_pure.mp ran
  | func head arguments inductionHypothesis =>
      intro target bindings after ran
      cases target with
      | func targetHead targets =>
          have children := forall_patternChildren inductionHypothesis
          simp only [matchImpl] at ran
          split_ifs at ran with otherHead symmetric
          · cases run_pure.mp ran
          · have sameHead : head = targetHead := not_not.mp otherHead
            subst targetHead
            obtain ⟨growth, fits⟩ := matchCommutative_sound children ran
            refine ⟨growth, fun later laterGrowth =>
              (equal_symmetric_iff symmetric).mpr ?_⟩
            simpa using fits later laterGrowth
          · have sameHead : head = targetHead := not_not.mp otherHead
            subst targetHead
            obtain ⟨growth, fits⟩ := matchPositional_sound children ran
            refine ⟨growth, fun later laterGrowth =>
              (equal_positional_iff (by simpa using symmetric)).mpr ?_⟩
            simpa using fits later laterGrowth
      | num | var | add | mul | pow =>
          cases run_pure.mp ran

/--
Bindings that `match` returns instantiate the pattern to the target, when every
list met again among positional arguments is the bound one in its order.
-/
theorem match_sound
    {pattern target : AtomTree}
    {bindings : MatchBindings}
    (matched : matchAtoms table pattern target = .ok (some bindings))
    (inOrder :
      ∀ event ∈ matchRecord table pattern target, event.InOrder table) :
    EqualUpToOrder table (bindings.substitution.instantiate table pattern)
      target :=
  (matchImpl_sound pattern target [] bindings ⟨matched, inOrder⟩).2 bindings
    (.refl bindings)

/-- The table after registering these names without attributes. -/
def tableOfNames (names : List String) : Snapshot :=
  names.foldl
    (fun table name =>
      match SymbolTable.getSymbol table "n".toList name.toList [] ⟨[], 0⟩ with
      | .ok (_, later) => later
      | .error _ => table)
    .empty

/-- `a`, `b`, `x__` and the functions `g`, `h` and `k`. -/
def sequenceTable : Snapshot :=
  tableOfNames ["a", "b", "x__", "g", "h", "k"]

/-- `k(g(first), h(second))`. -/
def nestedCalls (first second : List AtomTree) : AtomTree :=
  .func ⟨5⟩ [.func ⟨3⟩ first, .func ⟨4⟩ second]

/-- Calls of canonical arguments are canonical. -/
private theorem canonical_nestedCalls
    {first second : List AtomTree}
    (firstCanonical : ∀ tree ∈ first, tree.Canonical)
    (secondCanonical : ∀ tree ∈ second, tree.Canonical) :
    (nestedCalls first second).Canonical := by
  refine .func _ ?_
  intro argument member
  simp only [List.mem_cons, List.not_mem_nil, or_false] at member
  rcases member with isFirst | isSecond
  · subst argument
    exact .func _ firstCanonical
  · subst argument
    exact .func _ secondCanonical

/-- `k(g(x__), h(x__))` matches `k(g(a, b), h(a, b))`. -/
theorem match_sound_repeated_sequence :
    EqualUpToOrder sequenceTable
      ((MatchBindings.substitution
          [(⟨2⟩, .sequence [.var ⟨0⟩, .var ⟨1⟩])]).instantiate sequenceTable
        (nestedCalls [.var ⟨2⟩] [.var ⟨2⟩]))
      (nestedCalls [.var ⟨0⟩, .var ⟨1⟩] [.var ⟨0⟩, .var ⟨1⟩]) :=
  match_sound (by decide +kernel) (by decide +kernel)

/-- `k(g(x__), h(x__))` also matches `k(g(a, b), h(b, a))`. -/
theorem match_ignores_order :
    (nestedCalls [.var ⟨2⟩] [.var ⟨2⟩]).Canonical ∧
      (nestedCalls [.var ⟨0⟩, .var ⟨1⟩] [.var ⟨1⟩, .var ⟨0⟩]).Canonical ∧
      ∃ bindings,
        matchAtoms sequenceTable (nestedCalls [.var ⟨2⟩] [.var ⟨2⟩])
            (nestedCalls [.var ⟨0⟩, .var ⟨1⟩] [.var ⟨1⟩, .var ⟨0⟩]) =
          .ok (some bindings) ∧
        ¬EqualUpToOrder sequenceTable
          (bindings.substitution.instantiate sequenceTable
            (nestedCalls [.var ⟨2⟩] [.var ⟨2⟩]))
          (nestedCalls [.var ⟨0⟩, .var ⟨1⟩] [.var ⟨1⟩, .var ⟨0⟩]) := by
  have canonicalVars :
      ∀ symbols : List Symbol,
        ∀ tree ∈ symbols.map AtomTree.var, tree.Canonical := by
    intro symbols tree member
    obtain ⟨symbol, -, rfl⟩ := List.mem_map.mp member
    exact .var symbol
  refine ⟨canonical_nestedCalls (canonicalVars [⟨2⟩]) (canonicalVars [⟨2⟩]),
    canonical_nestedCalls (canonicalVars [⟨0⟩, ⟨1⟩]) (canonicalVars [⟨1⟩, ⟨0⟩]),
    [(⟨2⟩, .sequence [.var ⟨0⟩, .var ⟨1⟩])], ?_, ?_⟩
  · decide +kernel
  · decide +kernel

end PatternCore
