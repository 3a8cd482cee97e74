import Mathlib.Data.List.Perm.Basic
import Stocas.Pattern.Soundness

namespace PatternCore

open AtomCore (AtomTree)
open RecordedOutcomes (Run run_bind run_pure run_fail)
open SymbolTable (Snapshot Symbol)

/-!
# What a failed match means

The search keeps the first match of every child.  Where everything that it gives
up was the only possibility, a failed match means that no substitution solves the
pattern; otherwise it may have given up the right one.
-/

variable {table : Snapshot}

/-- A substitution solves a pattern for a target. -/
def Solves
    (table : Snapshot)
    (substitution : Substitution)
    (pattern target : AtomTree) : Prop :=
  EqualUpToOrder table (substitution.instantiate table pattern) target

/-- The value of a substitution is a bound one, up to order. -/
def AgreesOn
    (table : Snapshot)
    (substitution : Substitution)
    (symbol : Symbol) :
    BoundValue → Prop
  | .atom bound =>
      wildcardKind table symbol = some .single ∧
        EqualUpToOrder table (substitution.atom symbol) bound
  | .sequence bound =>
      wildcardKind table symbol ≠ some .single ∧
        SameMultiset table (substitution.sequence symbol) bound

/-- A substitution agrees with all bindings. -/
def Agrees
    (table : Snapshot)
    (substitution : Substitution)
    (bindings : MatchBindings) : Prop :=
  ∀ symbol value,
    bindings.lookup symbol = some value →
    AgreesOn table substitution symbol value

/--
Nothing is lost at this point of the search: what was given up was the only
possibility, and what was refused differs by more than order.
-/
def MatchEvent.Harmless (table : Snapshot) : MatchEvent → Prop
  | .repeatedAtom bound target =>
      EqualUpToOrder table bound target → bound = target
  | .repeatedSequence _ bound captured =>
      SameMultiset table bound captured → bound.Perm captured
  | .exhausted => True
  | .dropped pattern target bindings kept =>
      ∀ substitution : Substitution,
        substitution.Legal table →
        Agrees table substitution bindings →
        Solves table substitution pattern target →
        Agrees table substitution kept
  | .captureDropped normals pool bindings assigned leftover =>
      ∀ substitution : Substitution,
        substitution.Legal table →
        Agrees table substitution bindings →
        ∀ matched rest,
          pool.Perm (matched ++ rest) →
          List.Forall₂ (Solves table substitution) normals matched →
          Agrees table substitution assigned ∧
            SameMultiset table rest leftover

/-- The budget suffices and nothing is lost. -/
def MatchEvent.Faithful (table : Snapshot) (event : MatchEvent) : Prop :=
  event ≠ .exhausted ∧ event.Harmless table

/-- Where `match_impl` on this child fails, no substitution solves it. -/
def ChildComplete (table : Snapshot) (child : PatternChild) : Prop :=
  ∀ (target : AtomTree) (bindings : MatchBindings),
    Run (MatchEvent.Faithful table) (child.attempt target bindings) none →
    ∀ substitution : Substitution,
      substitution.Legal table →
      Agrees table substitution bindings →
      ¬Solves table substitution child.tree target

/-- Targets equal to two lists together, as a multiset, split into two lists. -/
theorem exists_split
    {targets firsts seconds : List AtomTree}
    (same : SameMultiset table (firsts ++ seconds) targets) :
    ∃ matched rest,
      targets.Perm (matched ++ rest) ∧
        firsts.map (arrange table) = matched.map (arrange table) ∧
        seconds.map (arrange table) = rest.map (arrange table) := by
  have related :
      Relation.Comp (fun images items => images = List.map (arrange table) items)
        List.Perm ((firsts ++ seconds).map (arrange table)) targets := by
    rw [List.eq_map_comp_perm]
    exact same
  obtain ⟨others, mapped, permuted⟩ := related
  rw [List.map_append] at mapped
  obtain ⟨matched, rest, isAppend, isMatched, isRest⟩ :=
    List.append_eq_map_iff.mp mapped
  subst others
  exact ⟨matched, rest, permuted.symm, isMatched.symm, isRest.symm⟩

/-- Lists that are equal up to order inside their elements, one by one. -/
theorem forall₂_solves
    {substitution : Substitution}
    {children : List PatternChild}
    {targets : List AtomTree}
    (same :
      (children.map fun child =>
          substitution.instantiate table child.tree).map (arrange table) =
        targets.map (arrange table)) :
    List.Forall₂
      (fun child target => Solves table substitution child.tree target)
      children targets := by
  induction children generalizing targets with
  | nil =>
      rw [List.map_nil, List.map_nil] at same
      rw [List.map_eq_nil_iff.mp same.symm]
      exact List.Forall₂.nil
  | cons child children inductionHypothesis =>
      cases targets with
      | nil =>
          cases same
      | cons target targets =>
          simp only [List.map_cons, List.cons.injEq] at same
          exact List.Forall₂.cons same.1 (inductionHypothesis same.2)

/-- Where the assignment fails, no part of the pool solves the children. -/
theorem assignNormals_complete
    {pool : List AtomTree}
    {normals : List PatternChild}
    (complete : ∀ child ∈ normals, ChildComplete table child)
    {used : List Bool}
    {bindings : MatchBindings}
    {attempts left : Nat}
    (ran :
      Run (MatchEvent.Faithful table)
        (assignNormals pool normals used bindings attempts) (none, left))
    {substitution : Substitution}
    (legal : substitution.Legal table)
    (agrees : Agrees table substitution bindings)
    {matched rest : List AtomTree}
    (permuted : (leftover pool used).Perm (matched ++ rest)) :
    ¬List.Forall₂
      (fun child target => Solves table substitution child.tree target)
      normals matched := by
  intro solved
  induction normals generalizing used bindings attempts left matched with
  | nil =>
      cases run_pure.mp ran
  | cons child normals inductionHypothesis =>
      cases solved with
      | @cons _ target _ others here later =>
          have isLeft : target ∈ leftover pool used :=
            permuted.mem_iff.mpr (by simp)
          obtain ⟨position, inPool, unused⟩ := position_of_mem_leftover isLeft
          have outcome :=
            run_tryPositions_none (fun good => good.1 rfl) ran
              (List.mk_mem_zipIdx_iff_getElem?.mpr inPool) unused
          rcases outcome with
            failed | ⟨kept, attemptsLeft, leftAfter, attempted, restRan, dropped⟩
          · exact complete child List.mem_cons_self target bindings failed
              substitution legal agrees here
          · have keptAgrees := dropped.2 substitution legal agrees here
            have remaining :
                (leftover pool (used.set position true)).Perm
                  (others ++ rest) := by
              have whole := (leftover_set inPool unused).symm.trans permuted
              rw [List.cons_append] at whole
              exact whole.cons_inv
            exact inductionHypothesis
              (fun other isOther =>
                complete other (List.mem_cons_of_mem _ isOther))
              restRan keptAgrees remaining later

/-- A refused sequence wildcard does not stand for the captured list. -/
theorem bindSequence_complete
    {context : CaptureContext}
    {sequence : SequenceWildcard}
    (kind :
      wildcardKind table sequence.symbol = some sequence.kind ∧
        sequence.kind ≠ .single)
    {captured : List AtomTree}
    {bindings : MatchBindings}
    (ran :
      Run (MatchEvent.Faithful table)
        (bindSequence context sequence captured bindings) none)
    {substitution : Substitution}
    (legal : substitution.Legal table)
    (agrees : Agrees table substitution bindings) :
    ¬SameMultiset table (substitution.sequence sequence.symbol) captured := by
  intro same
  rcases run_bindSequence_none ran with
    ⟨atLeastOne, empty⟩ | ⟨bound, isBound, refused, harmless⟩ | ⟨bound, isBound⟩
  · subst captured
    have isEmpty := List.map_eq_nil_iff.mp same.eq_nil
    rw [atLeastOne] at kind
    exact legal _ kind.1 isEmpty
  · have boundSame : SameMultiset table _ bound := (agrees _ _ isBound).2
    exact refused (harmless.2 (boundSame.symm.trans same))
  · have isSingle : wildcardKind table _ = some .single :=
      (agrees _ _ isBound).1
    rw [kind.1, Option.some.injEq] at isSingle
    exact kind.2 isSingle

/-- Where matching without order fails, no substitution solves the children. -/
theorem matchCommutative_complete
    {children : List PatternChild}
    (complete : ∀ child ∈ children, ChildComplete table child)
    {targets : List AtomTree}
    {bindings : MatchBindings}
    (ran :
      Run (MatchEvent.Faithful table)
        (matchCommutative table children targets bindings) none)
    {substitution : Substitution}
    (legal : substitution.Legal table)
    (agrees : Agrees table substitution bindings) :
    ¬SameMultiset table
      (substitution.instantiateAll table (children.map PatternChild.tree))
      targets := by
  intro same
  obtain ⟨⟨normals, sequence⟩, splitRan, rest⟩ := run_bind.mp ran
  have split := splitAs_of_run splitRan
  have normalsComplete : ∀ child ∈ normals, ChildComplete table child :=
    fun child member => complete child (split.member child member)
  have instantiated :=
    (split.instantiated substitution).symm.map (arrange table)
  obtain ⟨matched, others, permuted, isMatched, isRest⟩ :=
    exists_split (instantiated.trans same)
  have solved := forall₂_solves isMatched
  have lengths := permuted.length_eq
  have matchedLength := solved.length_eq
  have restLength := congrArg List.length isRest
  simp only [List.length_append, List.length_map] at lengths restLength
  simp only at rest
  split_ifs at rest with wrongSize tooFew
  · obtain ⟨isNone, sizes⟩ := wrongSize
    cases sequence with
    | none =>
        simp only [splicedBy, List.length_nil] at restLength
        omega
    | some wildcard =>
        cases isNone
  · obtain ⟨-, sizes⟩ := tooFew
    omega
  · obtain ⟨⟨assigned, left⟩, assignRan, ended⟩ := run_bind.mp rest
    cases assigned with
    | none =>
        have poolPerm :
            (leftover targets (List.replicate targets.length false)).Perm
              (matched ++ others) := by
          rwa [leftover_replicate]
        exact assignNormals_complete normalsComplete assignRan legal agrees
          poolPerm solved
    | some found =>
        obtain ⟨assigned, used⟩ := found
        cases sequence with
        | none =>
            cases run_pure.mp ended
        | some sequence =>
            obtain ⟨result, captureRan, noted⟩ := run_bind.mp ended
            obtain ⟨refused, harmless⟩ := run_noteIfNone_none.mp noted
            subst result
            have solvedTrees :
                List.Forall₂ (Solves table substitution)
                  (normals.map PatternChild.tree) matched := by
              rwa [List.forall₂_map_left_iff]
            obtain ⟨assignedAgrees, sameRest⟩ :=
              harmless.2 substitution legal agrees matched others permuted
                solvedTrees
            refine bindSequence_complete (split.kind sequence rfl) captureRan
              legal assignedAgrees ?_
            have sequenceSame :
                (substitution.sequence sequence.symbol).map (arrange table) =
                  others.map (arrange table) :=
              isRest
            rw [SameMultiset, sequenceSame]
            exact sameRest

/-- Where a positional loop fails, what follows it fails for some bindings. -/
theorem matchInOrder_complete
    {next : MatchBindings → Search (Option MatchBindings)}
    {children : List PatternChild}
    (complete : ∀ child ∈ children, ChildComplete table child)
    {substitution : Substitution}
    (legal : substitution.Legal table)
    {targets : List AtomTree}
    (solved :
      List.Forall₂
        (fun child target => Solves table substitution child.tree target)
        children targets)
    {bindings : MatchBindings}
    (agrees : Agrees table substitution bindings)
    (ran :
      Run (MatchEvent.Faithful table)
        (matchInOrder next children targets bindings) none) :
    ∃ middle,
      Agrees table substitution middle ∧
        Run (MatchEvent.Faithful table) (next middle) none := by
  induction solved generalizing bindings with
  | nil =>
      exact ⟨bindings, agrees, ran⟩
  | @cons child target children targets here _ inductionHypothesis =>
      rw [matchInOrder] at ran
      rcases run_followedBy_none.mp ran with
        failed | ⟨kept, attempted, continued, dropped⟩
      · exact (complete child List.mem_cons_self target bindings failed
          substitution legal agrees here).elim
      · exact inductionHypothesis
          (fun other isOther =>
            complete other (List.mem_cons_of_mem _ isOther))
          (dropped.2 substitution legal agrees here) continued

/-- Where matching in order fails, no substitution solves the children. -/
theorem matchPositional_complete
    {children : List PatternChild}
    (complete : ∀ child ∈ children, ChildComplete table child)
    {targets : List AtomTree}
    {bindings : MatchBindings}
    (ran :
      Run (MatchEvent.Faithful table)
        (matchPositionalWithSequence table children targets bindings) none)
    {substitution : Substitution}
    (legal : substitution.Legal table)
    (agrees : Agrees table substitution bindings) :
    (substitution.instantiateAll table
        (children.map PatternChild.tree)).map (arrange table) ≠
      targets.map (arrange table) := by
  intro same
  obtain ⟨outcome, findRan, rest⟩ := run_bind.mp ran
  rcases run_findSequenceWildcard findRan with
    ⟨isNone, normal⟩ | ⟨-, sequence, position, isSome, found⟩
  · subst outcome
    rw [instantiateAll_children normal] at same
    have solved := forall₂_solves same
    simp only at rest
    split_ifs at rest with wrongLength
    · exact wrongLength solved.length_eq
    · obtain ⟨middle, -, ended⟩ :=
        matchInOrder_complete complete legal solved agrees rest
      cases run_pure.mp ended
  · subst outcome
    rw [found.instantiated, instantiateAll_children found.before,
      instantiateAll_children found.after] at same
    have lengths := congrArg List.length same
    have inside := found.inside
    simp only [List.map_append, List.length_append, List.length_map,
      List.length_take, List.length_drop] at lengths
    simp only [Nat.zero_add] at rest
    split_ifs at rest with tooFew emptyMiddle
    · omega
    · obtain ⟨atLeastOne, noMiddle⟩ := emptyMiddle
      have kind := found.kind.1
      rw [atLeastOne] at kind
      apply legal _ kind
      apply List.length_eq_zero_iff.mp
      omega
    · have parts :=
        targets_in_parts targets position
          (targets.length - position - (children.length - position - 1))
      rw [parts, List.map_append, List.map_append, List.map_append,
        List.map_append] at same
      obtain ⟨prefixSame, same⟩ :=
        List.append_inj same (by simp [List.length_take]; omega)
      obtain ⟨middleSame, suffixSame⟩ :=
        List.append_inj same
          (by simp [List.length_take, List.length_drop]; omega)
      obtain ⟨beforeMiddle, prefixAgrees, suffixRan⟩ :=
        matchInOrder_complete
          (fun child member => complete child (List.mem_of_mem_take member))
          legal (forall₂_solves prefixSame) agrees rest
      obtain ⟨afterSuffix, suffixAgrees, captureRan⟩ :=
        matchInOrder_complete
          (fun child member => complete child (List.mem_of_mem_drop member))
          legal (forall₂_solves suffixSame) prefixAgrees suffixRan
      refine bindSequence_complete found.kind captureRan legal suffixAgrees ?_
      rw [SameMultiset, middleSame]

/-- Sorting children keeps the tag of a node. -/
theorem tag_arrange (tree : AtomTree) :
    (arrange table tree).tag = tree.tag := by
  cases tree with
  | num | var | add | mul | pow =>
      rfl
  | func head arguments =>
      rw [arrange]
      split_ifs <;> rfl

/-- Atoms that are equal up to order have the same tag. -/
theorem EqualUpToOrder.tag_eq
    {first second : AtomTree}
    (equal : EqualUpToOrder table first second) :
    first.tag = second.tag := by
  have tags := congrArg AtomTree.tag equal
  rwa [tag_arrange, tag_arrange] at tags

/-- Calls that are equal up to order have the same head. -/
theorem EqualUpToOrder.head_eq
    {head otherHead : Symbol}
    {arguments others : List AtomTree}
    (equal :
      EqualUpToOrder table (.func head arguments) (.func otherHead others)) :
    head = otherHead := by
  rw [EqualUpToOrder, arrange, arrange] at equal
  split_ifs at equal
  all_goals exact (AtomTree.func.inj equal).1

/-- Where `match_impl` fails, no substitution solves the pattern. -/
theorem matchImpl_complete
    (pattern : AtomTree) :
    ChildComplete table ⟨pattern, matchImpl table pattern⟩ := by
  induction pattern with
  | num value =>
      intro target bindings ran substitution legal agrees solves
      cases target with
      | num other =>
          have same : value = other := AtomTree.num.inj solves
          have outcome := run_pure.mp ran
          rw [if_pos same] at outcome
          cases outcome
      | var | add | mul | pow | func =>
          cases solves.tag_eq
  | var symbol =>
      intro target bindings ran substitution legal agrees solves
      simp only [matchImpl] at ran
      simp only [Solves, Substitution.instantiate] at solves
      cases kind : wildcardKind table symbol with
      | none =>
          rw [kind] at ran solves
          cases target with
          | var other =>
              have same : symbol = other := AtomTree.var.inj solves
              have outcome := run_pure.mp ran
              rw [if_pos same] at outcome
              cases outcome
          | num | add | mul | pow | func =>
              cases solves.tag_eq
      | some kind' =>
          rw [kind] at ran solves
          cases kind' with
          | single =>
              rcases run_bindAtom_none ran with
                ⟨bound, isBound, different, harmless⟩ | ⟨bound, isBound⟩
              · have boundEqual : EqualUpToOrder table _ bound :=
                  (agrees _ _ isBound).2
                exact different (harmless.2 (boundEqual.symm.trans solves))
              · exact (agrees _ _ isBound).1 kind
          | atLeastOne | anyCount =>
              exact run_fail ran
  | add terms inductionHypothesis =>
      intro target bindings ran substitution legal agrees solves
      cases target with
      | add targets =>
          refine matchCommutative_complete
            (forall_patternChildren inductionHypothesis) ran legal agrees ?_
          rw [map_tree_patternChildren]
          exact equal_add_iff.mp solves
      | num | var | mul | pow | func =>
          cases solves.tag_eq
  | mul factors inductionHypothesis =>
      intro target bindings ran substitution legal agrees solves
      cases target with
      | mul targets =>
          refine matchCommutative_complete
            (forall_patternChildren inductionHypothesis) ran legal agrees ?_
          rw [map_tree_patternChildren]
          exact equal_mul_iff.mp solves
      | num | var | add | pow | func =>
          cases solves.tag_eq
  | pow base exponent baseHypothesis exponentHypothesis =>
      intro target bindings ran substitution legal agrees solves
      cases target with
      | pow targetBase targetExponent =>
          obtain ⟨baseSolves, exponentSolves⟩ := equal_pow_iff.mp solves
          rcases run_followedBy_none.mp ran with
            failed | ⟨kept, -, exponentRan, dropped⟩
          · exact baseHypothesis _ _ failed substitution legal agrees baseSolves
          · exact exponentHypothesis _ _ exponentRan substitution legal
              (dropped.2 substitution legal agrees baseSolves) exponentSolves
      | num | var | add | mul | func =>
          cases solves.tag_eq
  | func head arguments inductionHypothesis =>
      intro target bindings ran substitution legal agrees solves
      cases target with
      | func targetHead targets =>
          have children := forall_patternChildren inductionHypothesis
          have sameHead : head = targetHead := EqualUpToOrder.head_eq solves
          subst targetHead
          simp only [matchImpl, ne_eq, not_true_eq_false, if_false] at ran
          split_ifs at ran with symmetric
          · refine matchCommutative_complete children ran legal agrees ?_
            rw [map_tree_patternChildren]
            exact (equal_symmetric_iff symmetric).mp solves
          · refine matchPositional_complete children ran legal agrees ?_
            rw [map_tree_patternChildren]
            exact (equal_positional_iff (by simpa using symmetric)).mp solves
      | num | var | add | mul | pow =>
          cases solves.tag_eq

/--
Where `match` finds nothing within its budget and has lost nothing on the way, no
substitution makes the pattern equal to the target.
-/
theorem match_complete
    {pattern target : AtomTree}
    (nothing : matchAtoms table pattern target = .ok none)
    (withinBudget : .exhausted ∉ matchRecord table pattern target)
    (harmless :
      ∀ event ∈ matchRecord table pattern target, event.Harmless table) :
    ¬∃ substitution : Substitution,
      substitution.Legal table ∧
        EqualUpToOrder table (substitution.instantiate table pattern)
          target := by
  intro solution
  obtain ⟨substitution, legal, solves⟩ := solution
  have faithful :
      ∀ event ∈ matchRecord table pattern target, event.Faithful table := by
    intro event member
    refine ⟨?_, harmless event member⟩
    intro isExhausted
    subst event
    exact withinBudget member
  exact matchImpl_complete pattern target [] ⟨nothing, faithful⟩ substitution
    legal nofun solves

/-- `a`, `b`, `x_`, `y_` and the function `f`. -/
def singleTable : Snapshot :=
  tableOfNames ["a", "b", "x_", "y_", "f"]

/-- `f(x_, x_)` does not match `f(a, b)`, and nothing is lost. -/
theorem match_complete_repeated :
    ¬∃ substitution : Substitution,
      substitution.Legal singleTable ∧
        EqualUpToOrder singleTable
          (substitution.instantiate singleTable
            (.func ⟨4⟩ [.var ⟨2⟩, .var ⟨2⟩]))
          (.func ⟨4⟩ [.var ⟨0⟩, .var ⟨1⟩]) := by
  refine match_complete (by decide +kernel) (by decide +kernel) ?_
  have record_eq :
      matchRecord singleTable (.func ⟨4⟩ [.var ⟨2⟩, .var ⟨2⟩])
          (.func ⟨4⟩ [.var ⟨0⟩, .var ⟨1⟩]) =
        [.repeatedAtom (.var ⟨0⟩) (.var ⟨1⟩),
          .dropped (.var ⟨2⟩) (.var ⟨0⟩) []
            [(⟨2⟩, .atom (.var ⟨0⟩))]] := by
    decide +kernel
  rw [record_eq]
  intro event member
  simp only [List.mem_cons, List.not_mem_nil, or_false] at member
  rcases member with isRepeated | isDropped
  · subst event
    intro equal
    cases equal
  · subst event
    intro substitution _ _ solves symbol value isBound
    have kind : wildcardKind singleTable ⟨2⟩ = some .single := by
      decide +kernel
    rw [Solves, Substitution.instantiate, kind] at solves
    by_cases same : symbol = ⟨2⟩
    · subst symbol
      cases isBound
      exact ⟨kind, solves⟩
    · have differs : (symbol == (⟨2⟩ : Symbol)) = false :=
        beq_eq_false_iff_ne.mpr same
      rw [List.lookup_cons, differs] at isBound
      cases isBound

/-- `(first + second)^exponent`. -/
def powerOfSum (first second exponent : Symbol) : AtomTree :=
  .pow (.add [.var first, .var second]) (.var exponent)

/-- It is canonical when its terms are in order. -/
private theorem canonical_powerOfSum
    {first second : Symbol}
    (ordered : AtomTree.var first ≤ .var second)
    (exponent : Symbol) :
    (powerOfSum first second exponent).Canonical := by
  have isVar :
      ∀ term ∈ [AtomTree.var first, .var second], ∃ symbol, term = .var symbol := by
    simp
  refine .pow (.add ?_ ?_ (by simpa using ordered)) (.var exponent)
  · intro term member
    obtain ⟨symbol, rfl⟩ := isVar term member
    exact .var symbol
  · intro term member
    obtain ⟨symbol, rfl⟩ := isVar term member
    exact AtomCore.AtomTag.noConfusion

/-- `(x_ + y_)^x_` does not match `(a + b)^b`, though `x_ = b` and `y_ = a` fit. -/
theorem match_gives_up_solution :
    (powerOfSum ⟨2⟩ ⟨3⟩ ⟨2⟩).Canonical ∧
      (powerOfSum ⟨0⟩ ⟨1⟩ ⟨1⟩).Canonical ∧
      matchAtoms singleTable (powerOfSum ⟨2⟩ ⟨3⟩ ⟨2⟩)
          (powerOfSum ⟨0⟩ ⟨1⟩ ⟨1⟩) =
        .ok none ∧
      .exhausted ∉
        matchRecord singleTable (powerOfSum ⟨2⟩ ⟨3⟩ ⟨2⟩)
          (powerOfSum ⟨0⟩ ⟨1⟩ ⟨1⟩) ∧
      ∃ substitution : Substitution,
        substitution.Legal singleTable ∧
          EqualUpToOrder singleTable
            (substitution.instantiate singleTable (powerOfSum ⟨2⟩ ⟨3⟩ ⟨2⟩))
            (powerOfSum ⟨0⟩ ⟨1⟩ ⟨1⟩) := by
  refine ⟨canonical_powerOfSum (by decide +kernel) _,
    canonical_powerOfSum (by decide +kernel) _, by decide +kernel,
    by decide +kernel,
    ⟨fun symbol => if symbol = ⟨2⟩ then .var ⟨1⟩ else .var ⟨0⟩,
      fun _ => [.var ⟨0⟩]⟩, ?_, ?_⟩
  · intro symbol _
    exact List.cons_ne_nil _ _
  · decide +kernel

end PatternCore
