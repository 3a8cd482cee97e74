import Stocas.Pattern.Equality

namespace PatternCore

open AtomCore (AtomTree)
open RecordedOutcomes (Recorded Run run_bind run_pure run_note run_fail)
open SymbolTable (Snapshot Symbol)

/-!
# What the parts of the search can do

One lemma for each part of the matcher says what a successful or failed run of it
has done, guards and recorded events included.  Nothing after this module unfolds
the search.
-/

variable {good : MatchEvent → Prop} {table : Snapshot}

/-- Later bindings have everything that earlier ones have. -/
def MatchBindings.Extends (earlier later : MatchBindings) : Prop :=
  ∀ symbol value,
    earlier.lookup symbol = some value → later.lookup symbol = some value

theorem MatchBindings.Extends.refl
    (bindings : MatchBindings) :
    bindings.Extends bindings :=
  fun _ _ found => found

theorem MatchBindings.Extends.trans
    {first second third : MatchBindings}
    (earlier : first.Extends second)
    (later : second.Extends third) :
    first.Extends third :=
  fun symbol value found => later symbol value (earlier symbol value found)

/-- Binding a new symbol extends the bindings. -/
theorem MatchBindings.extends_cons
    {bindings : MatchBindings}
    {symbol : Symbol}
    (unbound : bindings.lookup symbol = none)
    (value : BoundValue) :
    MatchBindings.Extends bindings ((symbol, value) :: bindings) := by
  intro other found isFound
  rw [List.lookup_cons]
  split
  · rename_i same
    rw [beq_iff_eq] at same
    subst other
    rw [unbound] at isFound
    cases isFound
  · exact isFound

theorem run_noteIfNone_some
    {α : Type}
    {event : MatchEvent}
    {outcome : Option α}
    {result : α} :
    Run good (noteIfNone event outcome) (some result) ↔
      outcome = some result := by
  cases outcome with
  | none =>
      simp [noteIfNone, run_bind]
  | some value =>
      simp [noteIfNone]

theorem run_noteIfNone_none
    {α : Type}
    {event : MatchEvent}
    {outcome : Option α} :
    Run good (noteIfNone event outcome) none ↔
      outcome = none ∧ good event := by
  cases outcome with
  | none =>
      simp [noteIfNone, run_bind]
  | some value =>
      simp [noteIfNone]

/-- A kept choice and its continuation succeed together. -/
theorem run_followedBy_some
    {α : Type}
    {child : PatternChild}
    {target : AtomTree}
    {bindings : MatchBindings}
    {next : MatchBindings → Search (Option α)}
    {result : α} :
    Run good (child.followedBy target bindings next) (some result) ↔
      ∃ kept,
        Run good (child.attempt target bindings) (some kept) ∧
          Run good (next kept) (some result) := by
  simp only [PatternChild.followedBy, run_bind]
  constructor
  · intro ran
    obtain ⟨outcome, attempted, rest⟩ := ran
    cases outcome with
    | none =>
        cases run_pure.mp rest
    | some kept =>
        obtain ⟨found, continued, noted⟩ := run_bind.mp rest
        rw [run_noteIfNone_some] at noted
        subst found
        exact ⟨kept, attempted, continued⟩
  · intro ran
    obtain ⟨kept, attempted, continued⟩ := ran
    exact ⟨some kept, attempted,
      run_bind.mpr ⟨some result, continued, run_noteIfNone_some.mpr rfl⟩⟩

/-- A failure is one of the child, or a choice that is given up. -/
theorem run_followedBy_none
    {α : Type}
    {child : PatternChild}
    {target : AtomTree}
    {bindings : MatchBindings}
    {next : MatchBindings → Search (Option α)} :
    Run good (child.followedBy target bindings next) none ↔
      Run good (child.attempt target bindings) none ∨
        ∃ kept,
          Run good (child.attempt target bindings) (some kept) ∧
            Run good (next kept) none ∧
            good (.dropped child.tree target bindings kept) := by
  simp only [PatternChild.followedBy, run_bind]
  constructor
  · intro ran
    obtain ⟨outcome, attempted, rest⟩ := ran
    cases outcome with
    | none =>
        exact Or.inl attempted
    | some kept =>
        obtain ⟨found, continued, noted⟩ := run_bind.mp rest
        obtain ⟨failed, dropped⟩ := run_noteIfNone_none.mp noted
        subst found
        exact Or.inr ⟨kept, attempted, continued, dropped⟩
  · intro ran
    rcases ran with attempted | ⟨kept, attempted, continued, dropped⟩
    · exact ⟨none, attempted, run_pure.mpr rfl⟩
    · exact ⟨some kept, attempted,
        run_bind.mpr ⟨none, continued, run_noteIfNone_none.mpr ⟨rfl, dropped⟩⟩⟩

/-- A wildcard for one atom is bound to the target. -/
theorem run_bindAtom_some
    {symbol : Symbol}
    {target : AtomTree}
    {bindings after : MatchBindings}
    (ran : Run good (bindAtom symbol target bindings) (some after)) :
    bindings.Extends after ∧ after.lookup symbol = some (.atom target) := by
  rw [bindAtom] at ran
  cases found : bindings.lookup symbol with
  | none =>
      rw [found] at ran
      cases run_pure.mp ran
      exact ⟨MatchBindings.extends_cons found _, by simp⟩
  | some value =>
      rw [found] at ran
      cases value with
      | atom bound =>
          obtain ⟨_, -, rest⟩ := run_bind.mp ran
          split_ifs at rest with same
          · cases run_pure.mp rest
            subst bound
            exact ⟨.refl bindings, found⟩
          · cases run_pure.mp rest
      | sequence bound =>
          cases run_pure.mp ran

/-- It is refused when it is bound otherwise. -/
theorem run_bindAtom_none
    {symbol : Symbol}
    {target : AtomTree}
    {bindings : MatchBindings}
    (ran : Run good (bindAtom symbol target bindings) none) :
    (∃ bound,
      bindings.lookup symbol = some (.atom bound) ∧ bound ≠ target ∧
        good (.repeatedAtom bound target)) ∨
      ∃ bound, bindings.lookup symbol = some (.sequence bound) := by
  rw [bindAtom] at ran
  cases found : bindings.lookup symbol with
  | none =>
      rw [found] at ran
      cases run_pure.mp ran
  | some value =>
      rw [found] at ran
      cases value with
      | atom bound =>
          obtain ⟨_, noted, rest⟩ := run_bind.mp ran
          split_ifs at rest with same
          · cases run_pure.mp rest
          · exact Or.inl ⟨bound, rfl, same, run_note.mp noted⟩
      | sequence bound =>
          exact Or.inr ⟨bound, rfl⟩

/-- A sequence wildcard is bound to the list, up to order if it was bound. -/
theorem run_bindSequence_some
    {context : CaptureContext}
    {sequence : SequenceWildcard}
    {captured : List AtomTree}
    {bindings after : MatchBindings}
    (ran :
      Run good (bindSequence context sequence captured bindings)
        (some after)) :
    bindings.Extends after ∧
      ∃ bound,
        after.lookup sequence.symbol = some (.sequence bound) ∧
          (bound = captured ∨
            bound.Perm captured ∧
              good (.repeatedSequence context bound captured)) := by
  rw [bindSequence] at ran
  split_ifs at ran
  · cases run_pure.mp ran
  · cases found : bindings.lookup sequence.symbol with
    | none =>
        rw [found] at ran
        cases run_pure.mp ran
        exact ⟨MatchBindings.extends_cons found _, captured, by simp,
          Or.inl rfl⟩
    | some value =>
        rw [found] at ran
        cases value with
        | atom bound =>
            cases run_pure.mp ran
        | sequence bound =>
            obtain ⟨_, noted, rest⟩ := run_bind.mp ran
            split_ifs at rest with same
            · cases run_pure.mp rest
              exact ⟨.refl bindings, bound, found,
                Or.inr ⟨sameMultiset_iff.mp same, run_note.mp noted⟩⟩
            · cases run_pure.mp rest

/-- It is refused when it must not be empty or is bound otherwise. -/
theorem run_bindSequence_none
    {context : CaptureContext}
    {sequence : SequenceWildcard}
    {captured : List AtomTree}
    {bindings : MatchBindings}
    (ran : Run good (bindSequence context sequence captured bindings) none) :
    (sequence.kind = .atLeastOne ∧ captured = []) ∨
      (∃ bound,
        bindings.lookup sequence.symbol = some (.sequence bound) ∧
          ¬bound.Perm captured ∧
          good (.repeatedSequence context bound captured)) ∨
      ∃ bound, bindings.lookup sequence.symbol = some (.atom bound) := by
  rw [bindSequence] at ran
  split_ifs at ran with refused
  · exact Or.inl refused
  · cases found : bindings.lookup sequence.symbol with
    | none =>
        rw [found] at ran
        cases run_pure.mp ran
    | some value =>
        rw [found] at ran
        cases value with
        | atom bound =>
            exact Or.inr (Or.inr ⟨bound, rfl⟩)
        | sequence bound =>
            obtain ⟨_, noted, rest⟩ := run_bind.mp ran
            split_ifs at rest with same
            · cases run_pure.mp rest
            · refine Or.inr (Or.inl ⟨bound, rfl, ?_, run_note.mp noted⟩)
              intro permuted
              exact same (sameMultiset_iff.mpr permuted)

/-- Using an unused element takes it out of what is left. -/
theorem leftover_set
    {pool : List AtomTree}
    {used : List Bool}
    {target : AtomTree}
    {position : Nat}
    (inPool : pool[position]? = some target)
    (unused : used[position]? = some false) :
    (leftover pool used).Perm
      (target :: leftover pool (used.set position true)) := by
  induction pool generalizing used position with
  | nil =>
      simp at inPool
  | cons first pool inductionHypothesis =>
      cases used with
      | nil =>
          simp at unused
      | cons isUsed used =>
          cases position with
          | zero =>
              simp only [List.getElem?_cons_zero, Option.some.injEq] at *
              subst first
              subst isUsed
              simp [leftover]
          | succ position =>
              simp only [List.getElem?_cons_succ] at inPool unused
              have later := inductionHypothesis inPool unused
              simp only [List.set_cons_succ, leftover]
              split_ifs
              · exact later
              · exact (later.cons first).trans (.swap target first _)

/-- What is left has a position that is not used. -/
theorem position_of_mem_leftover
    {pool : List AtomTree}
    {used : List Bool}
    {target : AtomTree}
    (isLeft : target ∈ leftover pool used) :
    ∃ position : Nat,
      pool[position]? = some target ∧ used[position]? = some false := by
  induction pool generalizing used with
  | nil =>
      simp [leftover] at isLeft
  | cons first pool inductionHypothesis =>
      cases used with
      | nil =>
          simp [leftover] at isLeft
      | cons isUsed used =>
          have later :
              target ∈ leftover pool used →
              ∃ position : Nat,
                (first :: pool)[position]? = some target ∧
                  (isUsed :: used)[position]? = some false := by
            intro isLater
            obtain ⟨position, inPool, unused⟩ := inductionHypothesis isLater
            exact ⟨position + 1, inPool, unused⟩
          rw [leftover] at isLeft
          split_ifs at isLeft with isTrue
          · exact later isLeft
          · rcases List.mem_cons.mp isLeft with isFirst | isLater
            · subst target
              exact ⟨0, rfl, by simpa using isTrue⟩
            · exact later isLater

/-- With nothing used everything is left. -/
theorem leftover_replicate
    (pool : List AtomTree) :
    leftover pool (List.replicate pool.length false) = pool := by
  induction pool with
  | nil =>
      rfl
  | cons first pool inductionHypothesis =>
      simp [List.replicate_succ, leftover, inductionHypothesis]

section Positions

variable {child : PatternChild} {used : List Bool} {bindings : MatchBindings}
  {assignRest : List Bool → MatchBindings → Nat → Search Assigned}
  {positions : List (AtomTree × Nat)} {attempts left : Nat}

/-- The loop succeeds at an unused position, from which the rest succeeds. -/
theorem run_tryPositions_some
    {found : MatchBindings × List Bool}
    (ran :
      Run good
        (tryPositions child used bindings assignRest positions attempts)
        (some found, left)) :
    ∃ target position kept attemptsLeft leftAfter,
      (target, position) ∈ positions ∧
        used[position]? = some false ∧
        Run good (child.attempt target bindings) (some kept) ∧
        Run good (assignRest (used.set position true) kept attemptsLeft)
          (some found, leftAfter) := by
  induction positions generalizing attempts with
  | nil =>
      cases run_pure.mp ran
  | cons first others inductionHypothesis =>
      obtain ⟨target, position⟩ := first
      have later :
          ∀ {attempts : Nat},
            Run good
              (tryPositions child used bindings assignRest others attempts)
              (some found, left) →
            ∃ other place kept attemptsLeft leftAfter,
              (other, place) ∈ (target, position) :: others ∧
                used[place]? = some false ∧
                Run good (child.attempt other bindings) (some kept) ∧
                Run good (assignRest (used.set place true) kept attemptsLeft)
                  (some found, leftAfter) := by
        intro attempts laterRan
        obtain ⟨other, place, kept, attemptsLeft, leftAfter, member, rest⟩ :=
          inductionHypothesis laterRan
        exact ⟨other, place, kept, attemptsLeft, leftAfter,
          List.mem_cons_of_mem _ member, rest⟩
      simp only [tryPositions] at ran
      split_ifs at ran with isUsed noAttempts
      · exact later ran
      · obtain ⟨_, -, ended⟩ := run_bind.mp ran
        cases run_pure.mp ended
      · obtain ⟨outcome, attempted, rest⟩ := run_bind.mp ran
        cases outcome with
        | none =>
            exact later rest
        | some kept =>
            obtain ⟨⟨result, attemptsAfter⟩, assigned, ended⟩ :=
              run_bind.mp rest
            cases result with
            | some other =>
                cases run_pure.mp ended
                exact ⟨target, position, kept, _, _, List.mem_cons_self,
                  not_not.mp isUsed, attempted, assigned⟩
            | none =>
                obtain ⟨_, -, laterRan⟩ := run_bind.mp ended
                exact later laterRan

/--
A loop that fails with attempts to spare has tried every unused position: the
child does not match there, or the rest fails and the choice is given up.
-/
theorem run_tryPositions_none
    (notExhausted : ¬good .exhausted)
    (ran :
      Run good
        (tryPositions child used bindings assignRest positions attempts)
        (none, left))
    {target : AtomTree}
    {position : Nat}
    (member : (target, position) ∈ positions)
    (unused : used[position]? = some false) :
    Run good (child.attempt target bindings) none ∨
      ∃ kept attemptsLeft leftAfter,
        Run good (child.attempt target bindings) (some kept) ∧
          Run good (assignRest (used.set position true) kept attemptsLeft)
            (none, leftAfter) ∧
          good (.dropped child.tree target bindings kept) := by
  induction positions generalizing attempts with
  | nil =>
      cases member
  | cons first others inductionHypothesis =>
      obtain ⟨here, place⟩ := first
      simp only [tryPositions] at ran
      split_ifs at ran with isUsed noAttempts
      · rcases List.mem_cons.mp member with isHere | isLater
        · cases isHere
          exact absurd unused isUsed
        · exact inductionHypothesis ran isLater
      · obtain ⟨_, noted, -⟩ := run_bind.mp ran
        exact absurd (run_note.mp noted) notExhausted
      · obtain ⟨outcome, attempted, rest⟩ := run_bind.mp ran
        cases outcome with
        | none =>
            rcases List.mem_cons.mp member with isHere | isLater
            · cases isHere
              exact Or.inl attempted
            · exact inductionHypothesis rest isLater
        | some kept =>
            obtain ⟨⟨result, attemptsAfter⟩, assigned, ended⟩ :=
              run_bind.mp rest
            cases result with
            | some other =>
                cases run_pure.mp ended
            | none =>
                obtain ⟨_, noted, laterRan⟩ := run_bind.mp ended
                rcases List.mem_cons.mp member with isHere | isLater
                · cases isHere
                  exact Or.inr ⟨kept, _, _, attempted, assigned,
                    run_note.mp noted⟩
                · exact inductionHypothesis laterRan isLater

end Positions

/-- The list that a sequence wildcard stands for, if there is one. -/
def splicedBy (substitution : Substitution) :
    Option SequenceWildcard → List AtomTree
  | none => []
  | some wildcard => substitution.sequence wildcard.symbol

/-- A sequence wildcard is classified by its name. -/
theorem kind_of_sequenceWildcard
    {tree : AtomTree}
    {wildcard : SequenceWildcard}
    (isWildcard : sequenceWildcard? table tree = some wildcard) :
    tree = .var wildcard.symbol ∧
      wildcardKind table wildcard.symbol = some wildcard.kind ∧
      wildcard.kind ≠ .single := by
  cases tree with
  | var symbol =>
      rw [sequenceWildcard?] at isWildcard
      split at isWildcard
      · cases isWildcard
      · cases isWildcard
      · rename_i kind notSingle isKind
        cases isWildcard
        refine ⟨rfl, isKind, ?_⟩
        intro isSingle
        exact notSingle isSingle
  | num | add | mul | pow | func =>
      cases isWildcard

/-- Children without sequence wildcards are instantiated one by one. -/
theorem instantiateAll_of_normal
    {trees : List AtomTree}
    (normal : ∀ tree ∈ trees, sequenceWildcard? table tree = none)
    (substitution : Substitution) :
    substitution.instantiateAll table trees =
      trees.map (substitution.instantiate table) := by
  induction trees with
  | nil =>
      rfl
  | cons tree rest inductionHypothesis =>
      have later :=
        inductionHypothesis fun other member => normal other (by simp [member])
      have here := normal tree (by simp)
      simp only [Substitution.instantiateAll, here, later, List.map_cons]

/-- The same for the trees of children. -/
theorem instantiateAll_children
    {children : List PatternChild}
    (normal : ∀ child ∈ children, sequenceWildcard? table child.tree = none)
    (substitution : Substitution) :
    substitution.instantiateAll table (children.map PatternChild.tree) =
      children.map fun child => substitution.instantiate table child.tree := by
  have normalTrees :
      ∀ tree ∈ children.map PatternChild.tree,
        sequenceWildcard? table tree = none := by
    intro tree member
    obtain ⟨child, childMember, rfl⟩ := List.mem_map.mp member
    exact normal child childMember
  rw [instantiateAll_of_normal normalTrees, List.map_map]
  rfl

/-- Instantiated lists are put together from their parts. -/
theorem instantiateAll_append
    (substitution : Substitution)
    (trees others : List AtomTree) :
    substitution.instantiateAll table (trees ++ others) =
      substitution.instantiateAll table trees ++
        substitution.instantiateAll table others := by
  induction trees with
  | nil =>
      rfl
  | cons tree rest inductionHypothesis =>
      simp only [List.cons_append, Substitution.instantiateAll,
        inductionHypothesis]
      split
      · rw [List.append_assoc]
      · rfl

/-- What `split_sequence_wildcard` finds among children. -/
structure SplitAs
    (table : Snapshot)
    (children normals : List PatternChild)
    (sequence : Option SequenceWildcard) : Prop where
  member : ∀ child ∈ normals, child ∈ children
  kind :
    ∀ wildcard ∈ sequence,
      wildcardKind table wildcard.symbol = some wildcard.kind ∧
        wildcard.kind ≠ .single
  instantiated :
    ∀ substitution : Substitution,
      (substitution.instantiateAll table
          (children.map PatternChild.tree)).Perm
        (normals.map (fun child => substitution.instantiate table child.tree) ++
          splicedBy substitution sequence)

/-- The children are split into normal ones and at most one wildcard. -/
theorem run_splitSequenceWildcard
    {children normals : List PatternChild}
    {before result : Option SequenceWildcard}
    (ran :
      Run good (splitSequenceWildcard table children before)
        (normals, result)) :
    ∃ found,
      SplitAs table children normals found ∧
        (result = before ∧ found = none ∨ before = none ∧ result = found) := by
  induction children generalizing before normals with
  | nil =>
      cases run_pure.mp ran
      refine ⟨none, ⟨nofun, nofun, fun _ => .refl _⟩, Or.inl ⟨rfl, rfl⟩⟩
  | cons child rest inductionHypothesis =>
      simp only [splitSequenceWildcard] at ran
      cases isWildcard : sequenceWildcard? table child.tree with
      | some wildcard =>
          rw [isWildcard] at ran
          simp only at ran
          split_ifs at ran with already
          · exact (run_fail ran).elim
          · obtain ⟨found, split, outcome⟩ := inductionHypothesis ran
            have noneBefore : before = none := by
              simpa using already
            have noneLater : result = some wildcard ∧ found = none := by
              rcases outcome with outcome | ⟨impossible, -⟩
              · exact outcome
              · cases impossible
            obtain ⟨isResult, noneFound⟩ := noneLater
            subst found
            refine ⟨some wildcard, ⟨?_, ?_, ?_⟩, Or.inr ⟨noneBefore, isResult⟩⟩
            · intro other member
              exact List.mem_cons_of_mem _ (split.member other member)
            · intro other isOther
              cases isOther
              exact (kind_of_sequenceWildcard isWildcard).2
            · intro substitution
              have later := split.instantiated substitution
              simp only [List.map_cons, Substitution.instantiateAll,
                isWildcard, splicedBy, List.append_nil] at later ⊢
              exact (later.append_left _).trans List.perm_append_comm
      | none =>
          rw [isWildcard] at ran
          obtain ⟨⟨others, result'⟩, laterRan, ended⟩ := run_bind.mp ran
          cases run_pure.mp ended
          obtain ⟨found, split, outcome⟩ := inductionHypothesis laterRan
          refine ⟨found, ⟨?_, split.kind, ?_⟩, outcome⟩
          · intro other member
            rcases List.mem_cons.mp member with isChild | isOther
            · subst other
              exact List.mem_cons_self
            · exact List.mem_cons_of_mem _ (split.member other isOther)
          · intro substitution
            have later := split.instantiated substitution
            simp only [List.map_cons, Substitution.instantiateAll, isWildcard,
              List.cons_append]
            exact later.cons _

/-- The whole list of children splits into the normal ones and what is found in it. -/
theorem splitAs_of_run
    {children normals : List PatternChild}
    {sequence : Option SequenceWildcard}
    (ran :
      Run good (splitSequenceWildcard table children none)
        (normals, sequence)) :
    SplitAs table children normals sequence := by
  obtain ⟨found, split, outcome⟩ := run_splitSequenceWildcard ran
  rcases outcome with ⟨isNone, noneFound⟩ | ⟨-, same⟩
  · rw [isNone, ← noneFound]
    exact split
  · rw [same]
    exact split

/-- The children before, at and after the sequence wildcard of a positional list. -/
structure FoundAt
    (table : Snapshot)
    (children : List PatternChild)
    (sequence : SequenceWildcard)
    (position : Nat) : Prop where
  inside : position < children.length
  kind :
    wildcardKind table sequence.symbol = some sequence.kind ∧
      sequence.kind ≠ .single
  before :
    ∀ child ∈ children.take position,
      sequenceWildcard? table child.tree = none
  here :
    ∃ child,
      children[position]? = some child ∧
        sequenceWildcard? table child.tree = some sequence
  after :
    ∀ child ∈ children.drop (position + 1),
      sequenceWildcard? table child.tree = none

/-- The positional scan finds the only sequence wildcard. -/
theorem run_findSequenceWildcard
    {children : List PatternChild}
    {position : Nat}
    {before result : Option (SequenceWildcard × Nat)}
    (ran :
      Run good (findSequenceWildcard table children position before) result) :
    (result = before ∧
        ∀ child ∈ children, sequenceWildcard? table child.tree = none) ∨
      before = none ∧
        ∃ sequence place,
          result = some (sequence, position + place) ∧
            FoundAt table children sequence place := by
  induction children generalizing position before with
  | nil =>
      cases run_pure.mp ran
      exact Or.inl ⟨rfl, nofun⟩
  | cons child rest inductionHypothesis =>
      simp only [findSequenceWildcard] at ran
      cases isWildcard : sequenceWildcard? table child.tree with
      | some wildcard =>
          rw [isWildcard] at ran
          simp only at ran
          split_ifs at ran with already
          · exact (run_fail ran).elim
          · have noneBefore : before = none := by
              simpa using already
            rcases inductionHypothesis ran with
              ⟨isResult, normal⟩ | ⟨impossible, -⟩
            · refine Or.inr ⟨noneBefore, wildcard, 0, isResult, ?_⟩
              exact ⟨by simp, (kind_of_sequenceWildcard isWildcard).2, by simp,
                ⟨child, rfl, isWildcard⟩, by simpa using normal⟩
            · cases impossible
      | none =>
          rw [isWildcard] at ran
          rcases inductionHypothesis ran with
            ⟨isResult, normal⟩ | ⟨noneBefore, sequence, place, isResult, found⟩
          · refine Or.inl ⟨isResult, ?_⟩
            intro other member
            rcases List.mem_cons.mp member with isChild | isOther
            · subst other
              exact isWildcard
            · exact normal other isOther
          · refine Or.inr ⟨noneBefore, sequence, place + 1, ?_, ?_⟩
            · rw [isResult, Nat.add_assoc, Nat.add_comm 1 place]
            · refine ⟨by simpa using found.inside, found.kind, ?_,
                by simpa using found.here, by simpa using found.after⟩
              intro other member
              rw [List.take_succ_cons] at member
              rcases List.mem_cons.mp member with isChild | isOther
              · subst other
                exact isWildcard
              · exact found.before other isOther

/-- A relation of bindings to later ones, and what it keeps of children. -/
structure Growth
    (grows : MatchBindings → MatchBindings → Prop)
    (relates : MatchBindings → AtomTree → AtomTree → Prop) : Prop where
  refl : ∀ bindings, grows bindings bindings
  trans :
    ∀ {first second third},
      grows first second → grows second third → grows first third
  later :
    ∀ {bindings after pattern target},
      relates bindings pattern target →
      grows bindings after →
      relates after pattern target

/-- `match_impl` on this child relates it to the target under grown bindings. -/
def ChildDelivers
    (good : MatchEvent → Prop)
    (grows : MatchBindings → MatchBindings → Prop)
    (relates : MatchBindings → AtomTree → AtomTree → Prop)
    (child : PatternChild) : Prop :=
  ∀ (target : AtomTree) (bindings after : MatchBindings),
    Run good (child.attempt target bindings) (some after) →
    grows bindings after ∧ relates after child.tree target

section Delivers

variable {grows : MatchBindings → MatchBindings → Prop}
  {relates : MatchBindings → AtomTree → AtomTree → Prop}

/-- A search for distinct elements of the pool relates children to them. -/
theorem assignNormals_delivers
    (growth : Growth grows relates)
    {pool : List AtomTree}
    {normals : List PatternChild}
    (deliver : ∀ child ∈ normals, ChildDelivers good grows relates child)
    {used usedAfter : List Bool}
    {bindings after : MatchBindings}
    {attempts left : Nat}
    (ran :
      Run good (assignNormals pool normals used bindings attempts)
        (some (after, usedAfter), left)) :
    grows bindings after ∧
      ∃ matched,
        (leftover pool used).Perm (matched ++ leftover pool usedAfter) ∧
          List.Forall₂ (fun child target => relates after child.tree target)
            normals matched := by
  induction normals generalizing used bindings attempts left with
  | nil =>
      cases run_pure.mp ran
      exact ⟨growth.refl _, [], .refl _, List.Forall₂.nil⟩
  | cons child normals inductionHypothesis =>
      obtain ⟨target, position, kept, attemptsLeft, leftAfter, member, unused,
        attempted, assigned⟩ := run_tryPositions_some ran
      have inPool := List.mk_mem_zipIdx_iff_getElem?.mp member
      obtain ⟨keptGrows, keptRelates⟩ :=
        deliver child List.mem_cons_self target bindings kept attempted
      obtain ⟨restGrows, matched, permuted, related⟩ :=
        inductionHypothesis
          (fun other isOther => deliver other (List.mem_cons_of_mem _ isOther))
          assigned
      refine ⟨growth.trans keptGrows restGrows, target :: matched, ?_,
        List.Forall₂.cons (growth.later keptRelates restGrows) related⟩
      exact (leftover_set inPool unused).trans (permuted.cons target)

/-- What a match without order has assigned and captured. -/
structure Assigns
    (good : MatchEvent → Prop)
    (relates : MatchBindings → AtomTree → AtomTree → Prop)
    (normals : List PatternChild)
    (sequence : Option SequenceWildcard)
    (targets : List AtomTree)
    (assigned after : MatchBindings)
    (matched captured : List AtomTree) : Prop where
  permuted : targets.Perm (matched ++ captured)
  related :
    List.Forall₂ (fun child target => relates assigned child.tree target)
      normals matched
  ended :
    match sequence with
    | none => captured = [] ∧ assigned = after
    | some wildcard =>
        Run good (bindSequence .commutative wildcard captured assigned)
          (some after)

/-- Matching without order assigns the normal children and captures the rest. -/
theorem matchCommutative_delivers
    (growth : Growth grows relates)
    {children : List PatternChild}
    (deliver : ∀ child ∈ children, ChildDelivers good grows relates child)
    {targets : List AtomTree}
    {bindings after : MatchBindings}
    (ran :
      Run good (matchCommutative table children targets bindings) (some after)) :
    ∃ normals sequence assigned matched captured,
      Run good (splitSequenceWildcard table children none) (normals, sequence) ∧
        grows bindings assigned ∧
        Assigns good relates normals sequence targets assigned after matched
          captured := by
  obtain ⟨⟨normals, sequence⟩, splitRan, rest⟩ := run_bind.mp ran
  have split := splitAs_of_run splitRan
  have normalsDeliver :
      ∀ child ∈ normals, ChildDelivers good grows relates child :=
    fun child member => deliver child (split.member child member)
  simp only at rest
  split_ifs at rest with wrongSize tooFew
  · cases run_pure.mp rest
  · cases run_pure.mp rest
  · obtain ⟨⟨assigned, left⟩, assignRan, ended⟩ := run_bind.mp rest
    cases assigned with
    | none =>
        cases run_pure.mp ended
    | some result =>
        obtain ⟨assigned, used⟩ := result
        obtain ⟨assignedGrows, matched, permuted, related⟩ :=
          assignNormals_delivers growth normalsDeliver assignRan
        rw [leftover_replicate] at permuted
        refine ⟨normals, sequence, assigned, matched, leftover targets used,
          splitRan, assignedGrows, permuted, related, ?_⟩
        cases sequence with
        | none =>
            cases run_pure.mp ended
            have lengths := permuted.length_eq
            have sameLength := related.length_eq
            rw [List.length_append] at lengths
            have exact_ : normals.length = targets.length := by
              simpa using wrongSize
            refine ⟨List.length_eq_zero_iff.mp ?_, rfl⟩
            omega
        | some wildcard =>
            obtain ⟨result, captureRan, noted⟩ := run_bind.mp ended
            rw [run_noteIfNone_some] at noted
            subst result
            exact captureRan

/-- A positional loop relates children to targets, and what follows it runs. -/
theorem matchInOrder_delivers
    (growth : Growth grows relates)
    {next : MatchBindings → Search (Option MatchBindings)}
    {children : List PatternChild}
    (deliver : ∀ child ∈ children, ChildDelivers good grows relates child)
    {targets : List AtomTree}
    (sameLength : children.length = targets.length)
    {bindings after : MatchBindings}
    (ran :
      Run good (matchInOrder next children targets bindings) (some after)) :
    ∃ middle,
      grows bindings middle ∧
        List.Forall₂ (fun child target => relates middle child.tree target)
          children targets ∧
        Run good (next middle) (some after) := by
  induction children generalizing targets bindings with
  | nil =>
      cases targets with
      | nil =>
          exact ⟨bindings, growth.refl _, List.Forall₂.nil, ran⟩
      | cons target targets =>
          cases sameLength
  | cons child children inductionHypothesis =>
      cases targets with
      | nil =>
          cases sameLength
      | cons target targets =>
          rw [matchInOrder] at ran
          obtain ⟨kept, attempted, continued⟩ := run_followedBy_some.mp ran
          obtain ⟨keptGrows, keptRelates⟩ :=
            deliver child List.mem_cons_self target bindings kept attempted
          obtain ⟨middle, restGrows, related, nextRan⟩ :=
            inductionHypothesis
              (fun other isOther =>
                deliver other (List.mem_cons_of_mem _ isOther))
              (Nat.succ.inj sameLength) continued
          exact ⟨middle, growth.trans keptGrows restGrows,
            List.Forall₂.cons (growth.later keptRelates restGrows) related, nextRan⟩

end Delivers

end PatternCore
