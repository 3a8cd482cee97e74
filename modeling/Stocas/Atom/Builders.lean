import Stocas.Atom.Interning

namespace AtomCore

open SymbolTable (Symbol Text)

/-!
# Runs of builder calls

Each builder is shown to deliver the tree it is named for.  A `BuilderCall` is
one call of the builder interface; over every finite run of calls whose operands
are slots of the arena, slots and trees determine each other, no slot's tree ever
changes, and sums and products stay flat and sorted.
-/

namespace AtomStore

section Builders

variable [StringHash]

/-- `num` delivers the number. -/
theorem num_built
    {store : AtomStore}
    (invariant : store.Invariant)
    (value : ℚ) :
    Built store (store.num value) (.num value) := by
  have wellFormed :
      Node.WellFormed store.childPool store.nodes.length
        { tag := .num, numValue := value } :=
    ⟨Nat.zero_le _, by simp [Node.children], fun _ => rfl, nofun⟩
  exact intern_built invariant wellFormed rfl (.num value)

/-- `var` delivers the variable. -/
theorem var_built
    {store : AtomStore}
    (invariant : store.Invariant)
    (symbol : Symbol) :
    Built store (store.var symbol) (.var symbol) := by
  have wellFormed :
      Node.WellFormed store.childPool store.nodes.length
        { tag := .var, symbolValue := some symbol } :=
    ⟨Nat.zero_le _, by simp [Node.children], fun _ => rfl, nofun⟩
  exact intern_built invariant wellFormed rfl (.var symbol)

/-- Builders with children deliver the node over the children's trees. -/
private theorem internWith_built
    {store : AtomStore}
    (invariant : store.Invariant)
    (tag : AtomTag)
    (symbolValue : Option Symbol)
    {children : List Nat}
    (inside : ∀ child ∈ children, child < store.nodes.length)
    (notLeaf : tag ≠ .num ∧ tag ≠ .var)
    (binary : tag = .pow → children.length = 2)
    {tree : AtomTree}
    (assembled :
      treeOfNode { tag := tag, symbolValue := symbolValue }
        (children.map store.tree) = tree)
    (canonical : tree.Canonical) :
    Built store (store.internWith tag symbolValue children) tree := by
  have grown := invariant.growPool children
  have growth :
      Extends store { store with childPool := store.childPool ++ children } :=
    ⟨List.prefix_rfl, List.prefix_append _ _⟩
  have own :
      Node.children (store.childPool ++ children)
          { tag := tag
            symbolValue := symbolValue
            childStart := store.childPool.length
            childCount := children.length } =
        children := by
    simp [Node.children]
  have built :
      Built { store with childPool := store.childPool ++ children }
        (store.internWith tag symbolValue children) tree := by
    apply intern_built grown ?_ ?_ canonical
    · refine ⟨?_, ?_, ?_, binary⟩
      · rw [List.length_append]
      · rw [own]
        exact inside
      · rintro (rfl | rfl)
        · exact absurd rfl notLeaf.1
        · exact absurd rfl notLeaf.2
    · rw [decode, own, ← assembled]
      have sameTrees :
          children.map
              (fun child =>
                (trees { store with
                  childPool := store.childPool ++ children }).getD
                  child (.num 0)) =
            children.map store.tree :=
        List.map_congr_left fun child member =>
          growth.tree invariant.wellFormed grown.wellFormed
            (inside child member)
      rw [sameTrees]
      rfl
  exact ⟨built.invariant, growth.trans built.growth, built.inside,
    built.tree_eq⟩

omit [StringHash] in
/-- Flattening slots flattens their trees. -/
theorem map_flattenOperands
    {store : AtomStore}
    (wellFormed : store.WellFormed)
    {operands : List Nat}
    (inside : ∀ operand ∈ operands, operand < store.nodes.length)
    (flattenTag : AtomTag) :
    (store.flattenOperands operands flattenTag).map store.tree =
      AtomTree.flattenOperands flattenTag (operands.map store.tree) := by
  simp only [flattenOperands, AtomTree.flattenOperands, List.map_flatMap,
    List.flatMap_map]
  apply List.flatMap_congr
  intro operand member
  have operandInside := inside operand member
  rw [AtomTree.operandsOf, tag_tree wellFormed operandInside]
  split_ifs
  · exact (children_tree wellFormed operandInside).symm
  · rfl

omit [StringHash] in
/-- Flattening stays among the arena's slots. -/
theorem flattenOperands_inside
    {store : AtomStore}
    (wellFormed : store.WellFormed)
    {operands : List Nat}
    (inside : ∀ operand ∈ operands, operand < store.nodes.length)
    {flattenTag : AtomTag}
    {child : Nat}
    (member : child ∈ store.flattenOperands operands flattenTag) :
    child < store.nodes.length := by
  simp only [flattenOperands, List.mem_flatMap] at member
  obtain ⟨operand, operandMember, childMember⟩ := member
  have operandInside := inside operand operandMember
  split_ifs at childMember with sameTag
  · exact (child_lt wellFormed operandInside childMember).trans operandInside
  · rw [List.mem_singleton.mp childMember]
    exact operandInside

omit [StringHash] in
/-- Sorting slots by `operator<=>` sorts their trees. -/
theorem map_sort
    {store : AtomStore}
    (wellFormed : store.WellFormed)
    {slots : List Nat}
    (inside : ∀ slot ∈ slots, slot < store.nodes.length) :
    (slots.insertionSort
        fun first second => store.compareSlots second first ≠ .lt).map
        store.tree =
      (slots.map store.tree).insertionSort (· ≤ ·) := by
  apply List.map_insertionSort
  intro first firstMember second secondMember
  rw [compareSlots_eq wellFormed (inside second secondMember)
      (inside first firstMember),
    ← not_lt, AtomTree.lt_iff_compare]

/-- `build_variadic` delivers the sorted flattened operands under its tag. -/
private theorem buildVariadic_built
    {store : AtomStore}
    (invariant : store.Invariant)
    {operands : List Nat}
    (inside : ∀ operand ∈ operands, operand < store.nodes.length)
    {tag : AtomTag}
    (variadic : tag = .add ∨ tag = .mul)
    {tree : AtomTree}
    (assembled :
      treeOfNode { tag := tag }
        (AtomTree.variadicChildren tag (operands.map store.tree)) = tree)
    (canonical : tree.Canonical) :
    Built store (store.buildVariadic tag operands) tree := by
  have flatInside :
      ∀ child ∈ store.flattenOperands operands tag,
        child < store.nodes.length :=
    fun child member =>
      flattenOperands_inside invariant.wellFormed inside member
  apply internWith_built invariant tag none ?_ ?_ ?_ ?_ canonical
  · intro child member
    exact flatInside child ((List.mem_insertionSort _).mp member)
  · rcases variadic with rfl | rfl <;> exact ⟨nofun, nofun⟩
  · rcases variadic with rfl | rfl <;> exact nofun
  · rw [map_sort invariant.wellFormed flatInside,
      map_flattenOperands invariant.wellFormed inside, ← assembled]
    rfl

/-- Every slot named by a list has a canonical tree. -/
private theorem canonical_map
    {store : AtomStore}
    (invariant : store.Invariant)
    {slots : List Nat}
    (inside : ∀ slot ∈ slots, slot < store.nodes.length) :
    ∀ tree ∈ slots.map store.tree, tree.Canonical := by
  intro tree member
  obtain ⟨slot, slotMember, rfl⟩ := List.mem_map.mp member
  exact invariant.canonical slot (inside slot slotMember)

/-- `add` delivers the flattened, sorted sum. -/
theorem add_built
    {store : AtomStore}
    (invariant : store.Invariant)
    {terms : List Nat}
    (inside : ∀ term ∈ terms, term < store.nodes.length) :
    Built store (store.add terms) (.mkAdd (terms.map store.tree)) :=
  buildVariadic_built invariant inside (Or.inl rfl) rfl
    (AtomTree.canonical_mkAdd (canonical_map invariant inside))

/-- `mul` delivers the flattened, sorted product. -/
theorem mul_built
    {store : AtomStore}
    (invariant : store.Invariant)
    {factors : List Nat}
    (inside : ∀ factor ∈ factors, factor < store.nodes.length) :
    Built store (store.mul factors) (.mkMul (factors.map store.tree)) :=
  buildVariadic_built invariant inside (Or.inr rfl) rfl
    (AtomTree.canonical_mkMul (canonical_map invariant inside))

/-- `pow` delivers the power of its operands. -/
theorem pow_built
    {store : AtomStore}
    (invariant : store.Invariant)
    {base exponent : Nat}
    (baseInside : base < store.nodes.length)
    (exponentInside : exponent < store.nodes.length) :
    Built store (store.pow base exponent)
      (.pow (store.tree base) (store.tree exponent)) := by
  have inside : ∀ child ∈ [base, exponent], child < store.nodes.length := by
    simp [baseInside, exponentInside]
  exact internWith_built invariant .pow none inside
    ⟨AtomTag.noConfusion, AtomTag.noConfusion⟩ (fun _ => rfl) rfl
    (.pow (invariant.canonical base baseInside)
      (invariant.canonical exponent exponentInside))

/-- `fun` delivers the application of the head to its operands. -/
theorem func_built
    {store : AtomStore}
    (invariant : store.Invariant)
    (head : Symbol)
    {arguments : List Nat}
    (inside : ∀ argument ∈ arguments, argument < store.nodes.length) :
    Built store (store.func head arguments)
      (.func head (arguments.map store.tree)) :=
  internWith_built invariant .func (some head) inside
    ⟨AtomTag.noConfusion, AtomTag.noConfusion⟩ AtomTag.noConfusion rfl
    (.func head (canonical_map invariant inside))

omit [StringHash] in
/-- Nodes are equal when the trees below them are. -/
private theorem nodesEqual_of_tree_eq
    {store : AtomStore}
    (wellFormed : store.WellFormed)
    {first second : Nat}
    (firstInside : first < store.nodes.length)
    (secondInside : second < store.nodes.length)
    (same : store.tree first = store.tree second)
    (sameChildren : store.children first = store.children second) :
    nodesEqual (store.node first) (store.node second) store.childPool =
      true := by
  have sameTag : store.tag first = store.tag second := by
    rw [← tag_tree wellFormed firstInside, same,
      tag_tree wellFormed secondInside]
  rw [tree_eq_treeOfNode wellFormed firstInside,
    tree_eq_treeOfNode wellFormed secondInside, treeOfNode, treeOfNode] at same
  rw [tag, tag] at sameTag
  rw [← sameTag] at same
  rw [nodesEqual_iff]
  refine ⟨sameTag, ?_, ?_, sameChildren⟩
  · intro isNum
    rw [isNum] at same
    exact AtomTree.num.inj same
  · rintro (isVar | isFunc)
    · rw [isVar] at same
      exact AtomTree.var.inj same
    · rw [isFunc] at same
      exact (AtomTree.func.inj same).1

omit [StringHash] in
/-- A function that is injective on two lists' elements separates the lists. -/
private theorem eq_of_map_eq
    {α β : Type*}
    {f : α → β}
    {firsts seconds : List α}
    (injective :
      ∀ first ∈ firsts, ∀ second ∈ seconds, f first = f second → first = second)
    (same : firsts.map f = seconds.map f) :
    firsts = seconds := by
  induction firsts generalizing seconds with
  | nil =>
      exact (List.map_eq_nil_iff.mp same.symm).symm
  | cons first rest inductionHypothesis =>
      cases seconds with
      | nil =>
          cases same
      | cons second others =>
          rw [List.map_cons, List.map_cons, List.cons.injEq] at same
          rw [injective first (by simp) second (by simp) same.1,
            inductionHypothesis
              (fun one oneMember two twoMember =>
                injective one (by simp [oneMember]) two (by simp [twoMember]))
              same.2]

/-- No two slots denote the same tree. -/
theorem Invariant.tree_injective
    {store : AtomStore}
    (invariant : store.Invariant)
    {first second : Nat}
    (firstInside : first < store.nodes.length)
    (secondInside : second < store.nodes.length)
    (same : store.tree first = store.tree second) :
    first = second := by
  have wellFormed := invariant.wellFormed
  induction first using Nat.strong_induction_on generalizing second with
  | _ first inductionHypothesis =>
      apply invariant.distinct first firstInside second secondInside
      apply nodesEqual_of_tree_eq wellFormed firstInside secondInside same
      have sameTrees := congrArg AtomTree.children same
      rw [children_tree wellFormed firstInside,
        children_tree wellFormed secondInside] at sameTrees
      apply eq_of_map_eq _ sameTrees
      intro child member otherChild otherMember sameTree
      have smaller := child_lt wellFormed firstInside member
      have otherSmaller := child_lt wellFormed secondInside otherMember
      exact inductionHypothesis child smaller (smaller.trans firstInside)
        (otherSmaller.trans secondInside) sameTree

/-- `operator==` on two slots of one store. -/
theorem Invariant.slotsEqual_iff
    {store : AtomStore}
    (invariant : store.Invariant)
    {first second : Nat}
    (firstInside : first < store.nodes.length)
    (secondInside : second < store.nodes.length) :
    store.slotsEqual first second = true ↔ first = second := by
  rw [slotsEqual, beq_iff_eq,
    compareSlots_eq invariant.wellFormed firstInside secondInside,
    AtomTree.compare_eq_iff]
  constructor
  · exact invariant.tree_injective firstInside secondInside
  · exact congrArg store.tree

/-- One call of the builder interface; operands are slots. -/
inductive BuilderCall where
  | num (value : ℚ)
  | var (symbol : Symbol)
  | add (terms : List Nat)
  | mul (factors : List Nat)
  | pow (base exponent : Nat)
  | func (head : Symbol) (arguments : List Nat)

namespace BuilderCall

/-- The slots that a call is given. -/
def operands : BuilderCall → List Nat
  | .num _ | .var _ => []
  | .add slots | .mul slots | .func _ slots => slots
  | .pow base exponent => [base, exponent]

/-- The operands come from the store. -/
def Legal (store : AtomStore) (call : BuilderCall) : Prop :=
  ∀ operand ∈ call.operands, operand < store.nodes.length

instance (store : AtomStore) (call : BuilderCall) :
    Decidable (call.Legal store) :=
  inferInstanceAs (Decidable (∀ operand ∈ call.operands, _))

/-- Perform a call: the slot it returns and the store after it. -/
def perform (store : AtomStore) : BuilderCall → Nat × AtomStore
  | .num value => store.num value
  | .var symbol => store.var symbol
  | .add terms => store.add terms
  | .mul factors => store.mul factors
  | .pow base exponent => store.pow base exponent
  | .func head arguments => store.func head arguments

/-- The tree that a call is meant to build. -/
def tree (store : AtomStore) : BuilderCall → AtomTree
  | .num value => .num value
  | .var symbol => .var symbol
  | .add terms => .mkAdd (terms.map store.tree)
  | .mul factors => .mkMul (factors.map store.tree)
  | .pow base exponent => .pow (store.tree base) (store.tree exponent)
  | .func head arguments => .func head (arguments.map store.tree)

/-- The store after a call. -/
def step (store : AtomStore) (call : BuilderCall) : AtomStore :=
  (call.perform store).2

/-- Every legal call delivers its tree. -/
theorem perform_built
    {store : AtomStore}
    (invariant : store.Invariant)
    {call : BuilderCall}
    (legal : call.Legal store) :
    Built store (call.perform store) (call.tree store) := by
  cases call with
  | num value =>
      exact num_built invariant value
  | var symbol =>
      exact var_built invariant symbol
  | add terms =>
      exact add_built invariant legal
  | mul factors =>
      exact mul_built invariant legal
  | pow base exponent =>
      exact pow_built invariant (legal base (by simp [operands]))
        (legal exponent (by simp [operands]))
  | func head arguments =>
      exact func_built invariant head legal

end BuilderCall

open BuilderCall (step Legal)
open Transition (run EveryStep)

/-- Legal runs keep the invariant and everything the arena had. -/
theorem run_preserves
    {store : AtomStore}
    (invariant : store.Invariant)
    {calls : List BuilderCall}
    (legal : EveryStep step Legal store calls) :
    (run step store calls).Invariant ∧ Extends store (run step store calls) := by
  have throughout :
      Transition.Throughout step
        (fun later => later.Invariant ∧ Extends store later) store calls := by
    refine Transition.throughout_of_preserved ?_
      ⟨invariant, Extends.refl store⟩ legal
    rintro earlier call ⟨earlierInvariant, growth⟩ isLegal
    have built := BuilderCall.perform_built earlierInvariant isLegal
    exact ⟨built.invariant, growth.trans built.growth⟩
  exact throughout calls List.prefix_rfl

/-- Some legal run of builder calls on a new store ends in this arena. -/
def Reachable (store : AtomStore) : Prop :=
  ∃ calls, EveryStep step Legal empty calls ∧ run step empty calls = store

/-- Reachable arenas represent canonical trees, each by one slot. -/
theorem Reachable.invariant
    {store : AtomStore}
    (reachable : store.Reachable) :
    store.Invariant := by
  obtain ⟨calls, legal, rfl⟩ := reachable
  exact (run_preserves invariant_empty legal).1

/-- Sums have no sum, and products no product, among their sorted children. -/
theorem Invariant.flat_and_sorted
    {store : AtomStore}
    (invariant : store.Invariant)
    {index : Nat}
    (inside : index < store.nodes.length)
    (variadic : store.tag index = .add ∨ store.tag index = .mul) :
    (∀ child ∈ store.children index, store.tag child ≠ store.tag index) ∧
      (store.children index).Pairwise
        fun first second => store.compareSlots first second ≠ .gt := by
  have wellFormed := invariant.wellFormed
  have childInside :
      ∀ child ∈ store.children index, child < store.nodes.length :=
    fun child member => (child_lt wellFormed inside member).trans inside
  have canonical := invariant.canonical index inside
  have treeFacts :=
    canonical.flat_and_sorted (by rwa [tag_tree wellFormed inside])
  rw [children_tree wellFormed inside, tag_tree wellFormed inside] at treeFacts
  obtain ⟨flat, sorted⟩ := treeFacts
  refine ⟨?_, ?_⟩
  · intro child member
    rw [← tag_tree wellFormed (childInside child member)]
    exact flat _ (List.mem_map_of_mem member)
  · refine (List.pairwise_map.mp sorted).imp_of_mem ?_
    intro first second firstMember secondMember below
    rw [compareSlots_eq wellFormed (childInside first firstMember)
      (childInside second secondMember)]
    exact below

/-- What the users of an arena rely on. -/
structure Faithful (store : AtomStore) : Prop where
  /-- Two slots never denote one tree. -/
  oneSlot :
    ∀ first < store.nodes.length,
      ∀ second < store.nodes.length,
        store.tree first = store.tree second → first = second
  /-- `operator==` and `same_slot` agree. -/
  equality :
    ∀ first < store.nodes.length,
      ∀ second < store.nodes.length,
        store.slotsEqual first second = sameSlot first second
  /-- A call returns a slot with the intended tree. -/
  returned :
    ∀ call : BuilderCall,
      call.Legal store →
      (call.perform store).1 < (step store call).nodes.length ∧
        (step store call).tree (call.perform store).1 = call.tree store
  /-- Later calls change no slot's tree. -/
  stable :
    ∀ later,
      EveryStep step Legal store later →
      ∀ index < store.nodes.length,
        index < (run step store later).nodes.length ∧
          (run step store later).tree index = store.tree index
  /-- Sums and products are flat. -/
  flat :
    ∀ index < store.nodes.length,
      store.tag index = .add ∨ store.tag index = .mul →
      ∀ child ∈ store.children index,
        store.tag child ≠ store.tag index
  /-- The children of sums and products are sorted by `operator<=>`. -/
  sorted :
    ∀ index < store.nodes.length,
      store.tag index = .add ∨ store.tag index = .mul →
      (store.children index).Pairwise
        fun first second => store.compareSlots first second ≠ .gt

/-- Every legal run of builder calls leaves a faithful arena. -/
theorem faithful_after_run
    {calls : List BuilderCall}
    (legal : EveryStep step Legal empty calls) :
    (run step empty calls).Faithful := by
  obtain ⟨invariant, -⟩ := run_preserves invariant_empty legal
  refine ⟨?_, ?_, ?_, ?_, ?_, ?_⟩
  · intro first firstInside second secondInside
    exact invariant.tree_injective firstInside secondInside
  · intro first firstInside second secondInside
    rw [sameSlot, Bool.eq_iff_iff, beq_iff_eq]
    exact invariant.slotsEqual_iff firstInside secondInside
  · intro call isLegal
    have built := BuilderCall.perform_built invariant isLegal
    exact ⟨built.inside, built.tree_eq⟩
  · intro later laterLegal index inside
    obtain ⟨laterInvariant, growth⟩ := run_preserves invariant laterLegal
    exact ⟨growth.inside inside,
      growth.tree invariant.wellFormed laterInvariant.wellFormed inside⟩
  · intro index inside variadic
    exact (invariant.flat_and_sorted inside variadic).1
  · intro index inside variadic
    exact (invariant.flat_and_sorted inside variadic).2

omit [StringHash] in
/-- `1/2 + x`, built twice with a hash that puts everything into one bucket. -/
theorem faithful_after_sum :
    let constant : StringHash := ⟨fun _ => 0⟩
    (run (@step constant) empty
      [.num (1 / 2), .var ⟨0⟩, .add [1, 0], .add [0, 1]]).Faithful := by
  refine @faithful_after_run ⟨fun _ => 0⟩ _ ?_
  simp only [Transition.everyStep_cons]
  refine ⟨?_, ?_, ?_, ?_, Transition.everyStep_nil⟩
  · decide
  · decide
  · decide +kernel
  · decide +kernel

end Builders

end AtomStore

end AtomCore
