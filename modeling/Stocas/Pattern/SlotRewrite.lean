import Stocas.Pattern.Rewrite
import Stocas.Pattern.SlotMatcherTrees

namespace PatternCore

open AtomCore (AtomStore AtomTree StringHash)
open AtomCore.AtomStore (Built BuiltAll Extends builtAll_nil built_self child_inside child_lt
  children_of_pow num_built tree_eq_byTag var_built)
open RelatedOutcomes (Related)
open SymbolTable (Snapshot Symbol)

/-!
# Rewriting in the arena

`replace_all` reads the target's slots and builds in the same arena, which grows between
the matches.  Every step delivers a slot of the tree that rewriting the target's tree
gives, so the result depends on the structure of the target only.
-/

namespace Slots

/-- The structure of what is bound. -/
def BoundValue.read (store : AtomStore) : BoundValue → PatternCore.BoundValue
  | .atom bound => .atom (store.tree bound)
  | .sequence bound => .sequence (bound.map store.tree)

/-- The structure of the bindings, which a guard may depend on. -/
def readBindings (store : AtomStore) (bindings : MatchBindings) : PatternCore.MatchBindings :=
  bindings.map fun entry => (entry.1, entry.2.read store)

/-- The list bound to a child that is a variable, if there is one. -/
def boundSequence? (bindings : MatchBindings) : AtomTree → Option (List ℕ)
  | .var symbol =>
      match bindings.lookup symbol with
      | some (.sequence bound) => some bound
      | _ => none
  | _ => none

section Algorithms

variable [StringHash] (table : Snapshot)

/-- What a step returns: a slot, and the arena after it. -/
abbrev Step : Type := Except MatchError (ℕ × AtomStore)

/-- The end of `substitute_impl` for sums: no child gives 0, one gives itself. -/
def collapseAdd (store : AtomStore) : List ℕ → ℕ × AtomStore
  | [] => store.num 0
  | [only] => (only, store)
  | children => store.add children

/-- The end of `substitute_impl` for products: no child gives 1, one gives itself. -/
def collapseMul (store : AtomStore) : List ℕ → ℕ × AtomStore
  | [] => store.num 1
  | [only] => (only, store)
  | children => store.mul children

section Substitute

variable (bindings : MatchBindings)

/-- The case of a variable in `substitute_impl`. -/
def substituteVar (store : AtomStore) (symbol : Symbol) : Step :=
  match bindings.lookup symbol with
  | some (.atom bound) => .ok (bound, store)
  | some (.sequence _) => .error (misusedSequence table symbol)
  | none =>
      if isWildcard table symbol then
        .error (unboundWildcard table symbol)
      else
        .ok (store.var symbol)

mutual

/-- `substitute_impl`. -/
def substitute : AtomTree → AtomStore → Step
  | .num value, store => .ok (store.num value)
  | .var symbol, store => substituteVar table bindings store symbol
  | .pow base exponent, store => do
      let (base, store) ← substitute base store
      let (exponent, store) ← substitute exponent store
      .ok (store.pow base exponent)
  | .add terms, store => do
      let (children, store) ← substituteAll terms store
      .ok (collapseAdd store children)
  | .mul factors, store => do
      let (children, store) ← substituteAll factors store
      .ok (collapseMul store children)
  | .func head arguments, store => do
      let (children, store) ← substituteAll arguments store
      .ok (store.func head children)

/-- The loop over the children, which splices bound lists. -/
def substituteAll : List AtomTree → AtomStore → Except MatchError (List ℕ × AtomStore)
  | [], store => .ok ([], store)
  | child :: rest, store =>
      match boundSequence? bindings child with
      | some bound => do
          let (later, store) ← substituteAll rest store
          .ok (bound ++ later, store)
      | none => do
          let (first, store) ← substitute child store
          let (later, store) ← substituteAll rest store
          .ok (first :: later, store)

end

end Substitute

variable (rule : Rule)

/-- The end of `replace_all_impl`, on the rebuilt node. -/
def applyRule (store : AtomStore) (rebuilt : ℕ) : Step := do
  match ← matchAtoms table store rule.pattern rebuilt with
  | none => .ok (rebuilt, store)
  | some bindings =>
      if rule.accepts (readBindings store bindings) then
        substitute table bindings rule.replacement store
      else
        .ok (rebuilt, store)

/-- The loop of `replace_all_impl` over the children. -/
def replaceChildren
    (replaceChild : AtomStore → ℕ → Step) :
    AtomStore → List ℕ → Except MatchError (List ℕ × AtomStore)
  | store, [] => .ok ([], store)
  | store, child :: rest => do
      let (first, store) ← replaceChild store child
      let (later, store) ← replaceChildren replaceChild store rest
      .ok (first :: later, store)

/-- `replace_all_impl`, with fuel for the depth of the recursion. -/
def replaceAllFuel : ℕ → AtomStore → ℕ → Step
  | 0, store, node => .ok (node, store)
  | fuel + 1, store, node =>
      match store.tag node with
      | .num | .var => applyRule table rule store node
      | .pow => do
          let (base, store) ← replaceAllFuel fuel store ((store.children node).getD 0 0)
          let (exponent, store) ← replaceAllFuel fuel store ((store.children node).getD 1 0)
          let (rebuilt, store) := store.pow base exponent
          applyRule table rule store rebuilt
      | .add => do
          let (children, store) ←
            replaceChildren (replaceAllFuel fuel) store (store.children node)
          let (rebuilt, store) := store.add children
          applyRule table rule store rebuilt
      | .mul => do
          let (children, store) ←
            replaceChildren (replaceAllFuel fuel) store (store.children node)
          let (rebuilt, store) := store.mul children
          applyRule table rule store rebuilt
      | .func => do
          let (children, store) ←
            replaceChildren (replaceAllFuel fuel) store (store.children node)
          let (rebuilt, store) := store.func (store.symbolOf node) children
          applyRule table rule store rebuilt

/-- `replace_all`; children come before their node, so its slot is fuel enough. -/
def replaceAll (store : AtomStore) (target : ℕ) : Step :=
  replaceAllFuel table rule (target + 1) store target

end Algorithms

/-- Slots show their trees in a grown arena. -/
theorem Shows.grow
    {store grown : AtomStore}
    (wellFormed : store.WellFormed)
    (grownWellFormed : grown.WellFormed)
    (growth : Extends store grown)
    {slot : ℕ}
    {tree : AtomTree}
    (shows_ : Shows store slot tree) :
    Shows grown slot tree where
  inside := growth.inside shows_.inside
  tree_eq := (growth.tree wellFormed grownWellFormed shows_.inside).trans shows_.tree_eq

/-- Bindings show theirs in a grown arena. -/
theorem BindingsShow.grow
    {store grown : AtomStore}
    (wellFormed : store.WellFormed)
    (grownWellFormed : grown.WellFormed)
    (growth : Extends store grown)
    {bindings : MatchBindings}
    {shown : PatternCore.MatchBindings}
    (bindingsShow : BindingsShow store bindings shown) :
    BindingsShow grown bindings shown := by
  refine List.Forall₂.imp ?_ bindingsShow
  rintro ⟨symbol, bound⟩ ⟨shownSymbol, shownBound⟩ ⟨sameSymbol, boundShows⟩
  refine ⟨sameSymbol, ?_⟩
  cases boundShows with
  | atom atomShows =>
      exact .atom (atomShows.grow wellFormed grownWellFormed growth)
  | sequence elementsShow =>
      exact .sequence (elementsShow.imp fun _ _ elementShows =>
        elementShows.grow wellFormed grownWellFormed growth)

/-- Reading the bindings reads what they show. -/
theorem readBindings_eq
    {store : AtomStore}
    {bindings : MatchBindings}
    {shown : PatternCore.MatchBindings}
    (bindingsShow : BindingsShow store bindings shown) :
    readBindings store bindings = shown := by
  induction bindingsShow with
  | nil =>
      rfl
  | @cons entry shownEntry _ _ entryShows _ inductionHypothesis =>
      obtain ⟨symbol, bound⟩ := entry
      obtain ⟨shownSymbol, shownBound⟩ := shownEntry
      obtain ⟨rfl, boundShows⟩ := entryShows
      rw [readBindings] at inductionHypothesis
      rw [readBindings, List.map_cons, inductionHypothesis]
      cases boundShows with
      | atom atomShows =>
          rw [BoundValue.read, atomShows.tree_eq]
      | sequence elementsShow =>
          rw [BoundValue.read, (forall₂_shows_iff.mp elementsShow).2]

/-- Both lists are bound, or none is. -/
theorem boundSequence_shows
    {store : AtomStore}
    {bindings : MatchBindings}
    {shown : PatternCore.MatchBindings}
    (bindingsShow : BindingsShow store bindings shown)
    (child : AtomTree) :
    Option.Rel (List.Forall₂ (Shows store)) (boundSequence? bindings child)
      (PatternCore.boundSequence? shown child) := by
  cases child with
  | var symbol =>
      rw [boundSequence?, PatternCore.boundSequence?]
      have found := lookup_shows bindingsShow symbol
      generalize bindings.lookup symbol = entry at found ⊢
      generalize shown.lookup symbol = shownEntry at found ⊢
      cases found with
      | none =>
          exact .none
      | some boundShows =>
          cases boundShows with
          | atom _ =>
              exact .none
          | sequence elementsShow =>
              exact .some elementsShow
  | _ =>
      exact .none

section Delivers

variable [StringHash] {table : Snapshot}

/-- Slots of the arena, put before slots that are built. -/
theorem builtAll_append
    {store : AtomStore}
    (invariant : store.Invariant)
    {bound : List ℕ}
    {boundTrees : List AtomTree}
    (boundShow : List.Forall₂ (Shows store) bound boundTrees)
    {later : List ℕ × AtomStore}
    {trees : List AtomTree}
    (built : BuiltAll store later trees) :
    BuiltAll store (bound ++ later.1, later.2) (boundTrees ++ trees) := by
  have grownShow := boundShow.imp fun _ _ elementShows =>
    elementShows.grow invariant.wellFormed built.invariant.wellFormed built.growth
  obtain ⟨inside, bound_eq⟩ := forall₂_shows_iff.mp grownShow
  refine ⟨built.invariant, built.growth, ?_, ?_⟩
  · exact List.forall_mem_append.mpr ⟨inside, built.inside⟩
  · rw [List.map_append, bound_eq, built.trees_eq]

/-- Sums collapse as on trees. -/
theorem collapseAdd_built
    {store : AtomStore}
    {children : List ℕ × AtomStore}
    {trees : List AtomTree}
    (built : BuiltAll store children trees) :
    Built store (collapseAdd children.2 children.1) (PatternCore.collapseAdd trees) := by
  have sumBuilt := built.add
  obtain ⟨slots, grown⟩ := children
  match slots, trees, built.trees_eq with
  | [], [], _ =>
      exact (num_built built.invariant 0).trans built.growth
  | [_], [_], _ =>
      exact built.only
  | _ :: _ :: _, _ :: _ :: _, _ =>
      exact sumBuilt

/-- Products collapse as on trees. -/
theorem collapseMul_built
    {store : AtomStore}
    {children : List ℕ × AtomStore}
    {trees : List AtomTree}
    (built : BuiltAll store children trees) :
    Built store (collapseMul children.2 children.1) (PatternCore.collapseMul trees) := by
  have productBuilt := built.mul
  obtain ⟨slots, grown⟩ := children
  match slots, trees, built.trees_eq with
  | [], [], _ =>
      exact (num_built built.invariant 1).trans built.growth
  | [_], [_], _ =>
      exact built.only
  | _ :: _ :: _, _ :: _ :: _, _ =>
      exact productBuilt

/-- A variable of the replacement. -/
theorem substituteVar_follows
    {store : AtomStore}
    (invariant : store.Invariant)
    {bindings : MatchBindings}
    {shown : PatternCore.MatchBindings}
    (bindingsShow : BindingsShow store bindings shown)
    (symbol : Symbol) :
    Related (Built store) (substituteVar table bindings store symbol)
      (PatternCore.substituteVar table shown symbol) := by
  rw [substituteVar, PatternCore.substituteVar]
  have found := lookup_shows bindingsShow symbol
  generalize bindings.lookup symbol = entry at found ⊢
  generalize shown.lookup symbol = shownEntry at found ⊢
  cases found with
  | none =>
      split_ifs with wildcard
      · exact .error _
      · exact .ok (var_built invariant symbol)
  | some boundShows =>
      cases boundShows with
      | atom atomShows =>
          refine .ok ⟨invariant, Extends.refl store, atomShows.inside, atomShows.tree_eq⟩
      | sequence _ =>
          exact .error _

mutual

/-- `substitute_impl` delivers the substituted tree. -/
theorem substitute_follows
    {store : AtomStore}
    (invariant : store.Invariant)
    {bindings : MatchBindings}
    {shown : PatternCore.MatchBindings}
    (bindingsShow : BindingsShow store bindings shown) :
    ∀ replacement : AtomTree,
      Related (Built store) (substitute table bindings replacement store)
        (PatternCore.substitute table shown replacement)
  | .num value => by
      rw [substitute, PatternCore.substitute]
      exact .ok (num_built invariant value)
  | .var symbol => by
      rw [substitute, PatternCore.substitute]
      exact substituteVar_follows invariant bindingsShow symbol
  | .pow base exponent => by
      rw [substitute, PatternCore.substitute]
      refine (substitute_follows invariant bindingsShow base).bind ?_
      intro baseResult baseTree baseBuilt
      have grownShow :=
        bindingsShow.grow invariant.wellFormed baseBuilt.invariant.wellFormed baseBuilt.growth
      refine (substitute_follows baseBuilt.invariant grownShow exponent).bind ?_
      intro exponentResult exponentTree exponentBuilt
      exact .ok (baseBuilt.pow exponentBuilt)
  | .add terms => by
      rw [substitute, PatternCore.substitute]
      refine (substituteAll_follows invariant bindingsShow terms).bind_map ?_
      intro result trees built
      exact .ok (collapseAdd_built built)
  | .mul factors => by
      rw [substitute, PatternCore.substitute]
      refine (substituteAll_follows invariant bindingsShow factors).bind_map ?_
      intro result trees built
      exact .ok (collapseMul_built built)
  | .func head arguments => by
      rw [substitute, PatternCore.substitute]
      refine (substituteAll_follows invariant bindingsShow arguments).bind_map ?_
      intro result trees built
      exact .ok (built.func head)

/-- The loop over the children delivers the substituted children. -/
theorem substituteAll_follows
    {store : AtomStore}
    (invariant : store.Invariant)
    {bindings : MatchBindings}
    {shown : PatternCore.MatchBindings}
    (bindingsShow : BindingsShow store bindings shown) :
    ∀ children : List AtomTree,
      Related (BuiltAll store) (substituteAll table bindings children store)
        (PatternCore.substituteAll table shown children)
  | [] => by
      rw [substituteAll, PatternCore.substituteAll]
      exact .ok (builtAll_nil invariant)
  | child :: rest => by
      rw [substituteAll, PatternCore.substituteAll]
      have spliced := boundSequence_shows bindingsShow child
      generalize boundSequence? bindings child = entry at spliced ⊢
      generalize PatternCore.boundSequence? shown child = shownEntry at spliced ⊢
      cases spliced with
      | none =>
          refine (substitute_follows invariant bindingsShow child).bind ?_
          intro first firstTree firstBuilt
          have grownShow := bindingsShow.grow invariant.wellFormed
            firstBuilt.invariant.wellFormed firstBuilt.growth
          refine (substituteAll_follows firstBuilt.invariant grownShow rest).bind ?_
          intro later laterTrees laterBuilt
          exact .ok (firstBuilt.cons laterBuilt)
      | some elementsShow =>
          refine (substituteAll_follows invariant bindingsShow rest).bind ?_
          intro later laterTrees laterBuilt
          exact .ok (builtAll_append invariant elementsShow laterBuilt)

end

variable {rule : Rule}

/-- The rule is applied to a slot as to its tree. -/
theorem applyRule_follows
    {store : AtomStore}
    {rebuilt : ℕ × AtomStore}
    {tree : AtomTree}
    (built : Built store rebuilt tree) :
    Related (Built store) (applyRule table rule rebuilt.2 rebuilt.1)
      (PatternCore.applyRule table rule tree) := by
  obtain ⟨invariant, growth, inside, tree_eq⟩ := built
  have searched := matchAtoms_follows invariant.wellFormed table rule.pattern
    ⟨inside, tree_eq⟩
  refine searched.bind ?_
  intro entry shownEntry found
  cases found with
  | none =>
      exact .ok ⟨invariant, growth, inside, tree_eq⟩
  | some bindingsShow =>
      simp only [readBindings_eq bindingsShow]
      split_ifs with accepted
      · refine (substitute_follows invariant bindingsShow rule.replacement).imp ?_
        intro result substituted substituteBuilt
        exact substituteBuilt.trans growth
      · exact .ok ⟨invariant, growth, inside, tree_eq⟩

/-- Slots below a bound are rewritten as their trees are. -/
def FollowsRewriting
    (table : Snapshot)
    (rule : Rule)
    (replaceChild : AtomStore → ℕ → Step)
    (bound : ℕ) : Prop :=
  ∀ {store : AtomStore} {child : ℕ},
    store.Invariant →
    child < store.nodes.length →
    child < bound →
    Related (Built store) (replaceChild store child)
      (PatternCore.replaceAll table rule (store.tree child))

/-- The loop over the children delivers the rewritten children. -/
theorem replaceChildren_follows
    {replaceChild : AtomStore → ℕ → Step}
    {bound : ℕ}
    (follows : FollowsRewriting table rule replaceChild bound)
    {store : AtomStore}
    (invariant : store.Invariant)
    {children : List ℕ}
    (inside : ∀ child ∈ children, child < store.nodes.length)
    (inBound : ∀ child ∈ children, child < bound) :
    Related (BuiltAll store) (replaceChildren replaceChild store children)
      (PatternCore.replaceAllIn table rule (children.map store.tree)) := by
  induction children generalizing store with
  | nil =>
      exact .ok (builtAll_nil invariant)
  | cons child rest inductionHypothesis =>
      obtain ⟨childInside, restInside⟩ := List.forall_mem_cons.mp inside
      obtain ⟨childBound, restBound⟩ := List.forall_mem_cons.mp inBound
      rw [List.map_cons, PatternCore.replaceAllIn, replaceChildren]
      refine (follows invariant childInside childBound).bind ?_
      intro first firstTree firstBuilt
      have grownInside : ∀ child ∈ rest, child < first.2.nodes.length :=
        fun child member => firstBuilt.growth.inside (restInside child member)
      have later := inductionHypothesis firstBuilt.invariant grownInside restBound
      rw [firstBuilt.growth.map_tree invariant firstBuilt.invariant restInside] at later
      refine later.bind ?_
      intro laterSlots laterTrees laterBuilt
      exact .ok (firstBuilt.cons laterBuilt)

/-- With fuel for its depth, `replace_all_impl` delivers the rewritten tree. -/
theorem replaceAllFuel_follows (fuel : ℕ) :
    FollowsRewriting table rule (replaceAllFuel table rule fuel) fuel := by
  induction fuel with
  | zero =>
      intro store node _ _ isZero
      exact absurd isZero (Nat.not_lt_zero node)
  | succ fuel inductionHypothesis =>
      intro store node invariant inside enough
      have wellFormed := invariant.wellFormed
      have upTo : node ≤ fuel := Nat.le_of_lt_succ enough
      have childInside : ∀ child ∈ store.children node, child < store.nodes.length :=
        fun child member => child_inside wellFormed inside member
      have childBound : ∀ child ∈ store.children node, child < fuel :=
        fun child member => (child_lt wellFormed inside member).trans_le upTo
      have loop :=
        replaceChildren_follows inductionHypothesis invariant childInside childBound
      have leaf : Related (Built store) (applyRule table rule store node)
          (PatternCore.applyRule table rule (store.tree node)) :=
        applyRule_follows (built_self invariant inside)
      have isTree := tree_eq_byTag wellFormed inside
      rw [replaceAllFuel]
      cases kind : store.tag node with
      | num | var =>
          simp only [kind] at isTree
          rw [isTree] at leaf ⊢
          exact leaf
      | add =>
          simp only [isTree, kind]
          refine loop.bind ?_
          intro children trees built
          exact applyRule_follows built.add
      | mul =>
          simp only [isTree, kind]
          refine loop.bind ?_
          intro children trees built
          exact applyRule_follows built.mul
      | pow =>
          obtain ⟨base, exponent, pair, baseBelow, exponentBelow⟩ :=
            children_of_pow wellFormed inside kind
          have exponentInside := exponentBelow.trans inside
          simp only [isTree, kind, pair]
          have first := inductionHypothesis invariant (baseBelow.trans inside)
            (baseBelow.trans_le upTo)
          refine first.bind ?_
          rintro ⟨baseSlot, grown⟩ baseTree baseBuilt
          have later := inductionHypothesis baseBuilt.invariant
            (baseBuilt.growth.inside exponentInside) (exponentBelow.trans_le upTo)
          rw [baseBuilt.tree_old invariant exponentInside] at later
          have samePair := (baseBuilt.growth.children wellFormed inside).trans pair
          simp only [samePair]
          refine later.bind ?_
          intro exponentResult exponentTree exponentBuilt
          exact applyRule_follows (baseBuilt.pow exponentBuilt)
      | func =>
          simp only [isTree, kind]
          refine loop.bind ?_
          intro children trees built
          have sameHead : children.2.symbolOf node = store.symbolOf node :=
            congrArg AtomCore.Node.symbol (built.growth.node inside)
          rw [← sameHead]
          exact applyRule_follows (built.func _)

variable (table rule)

/-- `replace_all` delivers a slot of the rewritten tree, or throws what the tree does. -/
theorem replaceAll_follows
    {store : AtomStore}
    (invariant : store.Invariant)
    {target : ℕ}
    (inside : target < store.nodes.length) :
    Related (Built store) (replaceAll table rule store target)
      (PatternCore.replaceAll table rule (store.tree target)) :=
  replaceAllFuel_follows (target + 1) invariant inside (Nat.lt_succ_self target)

end Delivers

end Slots

end PatternCore
