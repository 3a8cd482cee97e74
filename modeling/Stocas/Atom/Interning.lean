import Stocas.Atom.StoreInvariant

namespace AtomCore

open SymbolTable (Symbol Text)

/-!
# Interning keeps one slot for each tree

`AtomStore.Invariant` is what every builder preserves: nodes refer to earlier
slots, equal nodes share a slot, every slot can be found in its hash bucket,
and every slot's tree is canonical.  `AtomStore.Built` is the common
postcondition of the builders: the invariant again, nothing forgotten, and a
slot whose tree is the intended one.
-/

/-- `nodes_equal` compares exactly what the tag gives a meaning to. -/
theorem nodesEqual_iff
    {first second : Node}
    {childPool : List Nat} :
    nodesEqual first second childPool = true ↔
      first.tag = second.tag ∧
        (first.tag = .num → first.numValue = second.numValue) ∧
        (first.tag = .var ∨ first.tag = .func → first.symbol = second.symbol) ∧
        first.children childPool = second.children childPool := by
  have sameSymbol :
      first.symbol.id = second.symbol.id ↔ first.symbol = second.symbol := by
    rcases first.symbol with ⟨id⟩
    rcases second.symbol with ⟨otherId⟩
    simp
  simp only [nodesEqual, Bool.and_eq_true, Bool.or_eq_true, beq_iff_eq,
    bne_iff_ne, sameSymbol]
  cases first.tag <;> simp [and_assoc]

theorem nodesEqual_comm
    {first second : Node}
    {childPool : List Nat} :
    nodesEqual first second childPool = nodesEqual second first childPool := by
  rw [Bool.eq_iff_iff, nodesEqual_iff, nodesEqual_iff]
  constructor <;>
    rintro ⟨sameTag, sameValue, sameSymbol, sameChildren⟩ <;>
    rw [sameTag] at sameValue sameSymbol <;>
    exact ⟨sameTag.symm, fun isNum => (sameValue isNum).symm,
      fun isNamed => (sameSymbol isNamed).symm, sameChildren.symm⟩

/-- Equal nodes have equal hashes. -/
theorem computeHash_congr
    [StringHash]
    {first second : Node}
    {childPool : List Nat}
    (same : nodesEqual first second childPool = true) :
    computeHash first childPool = computeHash second childPool := by
  obtain ⟨sameTag, sameValue, sameSymbol, sameChildren⟩ :=
    nodesEqual_iff.mp same
  simp only [computeHash, ← sameTag, ← sameChildren]
  by_cases isNum : first.tag = .num
  · simp [isNum, sameValue isNum]
  · by_cases isNamed : first.tag = .var ∨ first.tag = .func
    · simp [isNum, isNamed, sameSymbol isNamed]
    · simp [isNum, isNamed]

/-- Equal nodes have the same tree. -/
private theorem decode_eq_of_nodesEqual
    {first second : Node}
    {childPool : List Nat}
    (same : nodesEqual first second childPool = true)
    (known : List AtomTree) :
    AtomStore.decode childPool known first =
      AtomStore.decode childPool known second := by
  obtain ⟨sameTag, sameValue, sameSymbol, sameChildren⟩ :=
    nodesEqual_iff.mp same
  simp only [AtomStore.decode, AtomStore.treeOfNode, ← sameTag, ← sameChildren]
  cases kind : first.tag with
  | num =>
      rw [sameValue kind]
  | var =>
      rw [sameSymbol (Or.inl kind)]
  | func =>
      rw [sameSymbol (Or.inr kind)]
  | add | mul | pow =>
      rfl

namespace AtomStore

section Interning

variable [StringHash]

/-- The arena represents canonical trees, each by one slot. -/
structure Invariant (store : AtomStore) : Prop where
  wellFormed : store.WellFormed
  distinct :
    ∀ first < store.nodes.length,
      ∀ second < store.nodes.length,
        nodesEqual (store.node first) (store.node second) store.childPool =
          true →
        first = second
  indexed :
    ∀ index < store.nodes.length,
      index ∈
        store.hashBuckets (computeHash (store.node index) store.childPool)
  inBounds :
    ∀ hash,
      ∀ index ∈ store.hashBuckets hash,
        index < store.nodes.length
  canonical :
    ∀ index < store.nodes.length,
      (store.tree index).Canonical

/-- What a builder call delivers: a slot of the grown arena with this tree. -/
structure Built
    (store : AtomStore)
    (result : Nat × AtomStore)
    (tree : AtomTree) : Prop where
  invariant : result.2.Invariant
  growth : Extends store result.2
  inside : result.1 < result.2.nodes.length
  tree_eq : result.2.tree result.1 = tree

/-- The arena of a new store represents nothing. -/
theorem invariant_empty : empty.Invariant where
  wellFormed := fun _ inside => absurd inside (Nat.not_lt_zero _)
  distinct := fun _ inside => absurd inside (Nat.not_lt_zero _)
  indexed := fun _ inside => absurd inside (Nat.not_lt_zero _)
  inBounds := fun _ _ member => absurd member List.not_mem_nil
  canonical := fun _ inside => absurd inside (Nat.not_lt_zero _)

namespace Invariant

variable {store : AtomStore}

/-- Pooled children that no node refers to yet change nothing. -/
theorem growPool
    (invariant : store.Invariant)
    (added : List Nat) :
    Invariant { store with childPool := store.childPool ++ added } := by
  have sameChildren :
      ∀ index < store.nodes.length,
        (store.node index).children (store.childPool ++ added) =
          (store.node index).children store.childPool :=
    fun index inside =>
      (invariant.wellFormed index inside).children_append added
  have growth :
      Extends store { store with childPool := store.childPool ++ added } :=
    ⟨List.prefix_rfl, List.prefix_append _ _⟩
  have wellFormed :
      WellFormed { store with childPool := store.childPool ++ added } :=
    fun index inside => (invariant.wellFormed index inside).append added
  refine ⟨wellFormed, ?_, ?_, invariant.inBounds, ?_⟩
  · intro first firstInside second secondInside same
    apply invariant.distinct first firstInside second secondInside
    rw [nodesEqual_iff] at same ⊢
    rw [← sameChildren first firstInside, ← sameChildren second secondInside]
    exact same
  · intro index inside
    have known := invariant.indexed index inside
    simp only [computeHash, ← sameChildren index inside] at known
    exact known
  · intro index inside
    rw [growth.tree invariant.wellFormed wellFormed inside]
    exact invariant.canonical index inside

end Invariant

/-- No slot equals a candidate that the candidate's bucket does not show. -/
private theorem nodesEqual_eq_false
    {store : AtomStore}
    (invariant : store.Invariant)
    {candidate : Node}
    (search :
      (store.hashBuckets (computeHash candidate store.childPool)).find?
          (fun existing =>
            nodesEqual (store.node existing) candidate store.childPool) =
        none)
    {existing : Nat}
    (inside : existing < store.nodes.length) :
    nodesEqual (store.node existing) candidate store.childPool = false := by
  rw [List.find?_eq_none] at search
  cases same : nodesEqual (store.node existing) candidate store.childPool with
  | false =>
      rfl
  | true =>
      have indexed := invariant.indexed existing inside
      rw [computeHash_congr same] at indexed
      exact absurd same (search existing indexed)

/-- The arena after `intern` has found no equal node. -/
def push (store : AtomStore) (candidate : Node) : AtomStore where
  nodes := store.nodes ++ [candidate]
  childPool := store.childPool
  hashBuckets :=
    let hash := computeHash candidate store.childPool
    Function.update store.hashBuckets hash
      (store.hashBuckets hash ++ [store.nodes.length])

section Push

variable {store : AtomStore} {candidate : Node}

theorem extends_push : Extends store (store.push candidate) :=
  ⟨List.prefix_append _ _, List.prefix_rfl⟩

/-- Slots after a push are the old ones and the new one. -/
theorem lt_length_push
    {index : Nat} :
    index < (store.push candidate).nodes.length ↔
      index < store.nodes.length ∨ index = store.nodes.length := by
  simp only [push, List.length_append, List.length_singleton]
  omega

theorem node_push_old
    {index : Nat}
    (inside : index < store.nodes.length) :
    (store.push candidate).node index = store.node index :=
  extends_push.node inside

@[simp] theorem node_push_new :
    (store.push candidate).node store.nodes.length = candidate := by
  simp [node, push, List.getD_eq_getElem?_getD]

/-- The old entries of the buckets stay, and the new slot is entered. -/
theorem mem_hashBuckets_push
    {hash : UInt64}
    {index : Nat} :
    index ∈ (store.push candidate).hashBuckets hash ↔
      index ∈ store.hashBuckets hash ∨
        hash = computeHash candidate store.childPool ∧
          index = store.nodes.length := by
  simp only [push, Function.update_apply]
  split_ifs with isHash
  · simp [isHash]
  · simp [isHash]

/-- Pushing a well-formed node keeps the arena well formed. -/
theorem wellFormed_push
    (storeWellFormed : store.WellFormed)
    (wellFormed :
      candidate.WellFormed store.childPool store.nodes.length) :
    (store.push candidate).WellFormed := by
  intro index inside
  rcases lt_length_push.mp inside with isOld | rfl
  · rw [node_push_old isOld]
    exact storeWellFormed index isOld
  · rw [node_push_new]
    exact wellFormed

/-- The new slot's tree is the candidate, decoded in the old arena. -/
theorem tree_push_new
    (storeWellFormed : store.WellFormed)
    (wellFormed :
      candidate.WellFormed store.childPool store.nodes.length) :
    (store.push candidate).tree store.nodes.length =
      decode store.childPool store.trees candidate := by
  have pushed := wellFormed_push storeWellFormed wellFormed
  rw [tree_eq_decode pushed (lt_length_push.mpr (Or.inr rfl)), node_push_new]
  refine decode_congr rfl fun child member => ?_
  exact extends_push.tree storeWellFormed pushed
    (wellFormed.earlier child member)

/-- Pushing a fresh well-formed node keeps the invariant. -/
theorem invariant_push
    (invariant : store.Invariant)
    (wellFormed :
      candidate.WellFormed store.childPool store.nodes.length)
    (canonical :
      (decode store.childPool store.trees candidate).Canonical)
    (fresh :
      ∀ existing < store.nodes.length,
        nodesEqual (store.node existing) candidate store.childPool = false) :
    (store.push candidate).Invariant := by
  have pushed := wellFormed_push invariant.wellFormed wellFormed
  refine ⟨pushed, ?_, ?_, ?_, ?_⟩
  · intro first firstInside second secondInside same
    rcases lt_length_push.mp firstInside with firstOld | rfl
    · rcases lt_length_push.mp secondInside with secondOld | rfl
      · rw [node_push_old firstOld, node_push_old secondOld] at same
        exact invariant.distinct first firstOld second secondOld same
      · rw [node_push_old firstOld, node_push_new] at same
        exact absurd same (Bool.eq_false_iff.mp (fresh first firstOld))
    · rcases lt_length_push.mp secondInside with secondOld | rfl
      · rw [node_push_old secondOld, node_push_new, nodesEqual_comm] at same
        exact absurd same (Bool.eq_false_iff.mp (fresh second secondOld))
      · rfl
  · intro index inside
    rw [mem_hashBuckets_push]
    rcases lt_length_push.mp inside with isOld | rfl
    · rw [node_push_old isOld]
      exact Or.inl (invariant.indexed index isOld)
    · rw [node_push_new]
      exact Or.inr ⟨rfl, rfl⟩
  · intro hash index member
    rw [lt_length_push]
    rcases mem_hashBuckets_push.mp member with isOld | ⟨-, isNew⟩
    · exact Or.inl (invariant.inBounds hash index isOld)
    · exact Or.inr isNew
  · intro index inside
    rcases lt_length_push.mp inside with isOld | rfl
    · rw [extends_push.tree invariant.wellFormed pushed isOld]
      exact invariant.canonical index isOld
    · rw [tree_push_new invariant.wellFormed wellFormed]
      exact canonical

end Push

/-- `intern` delivers a slot for the tree of a well-formed candidate. -/
theorem intern_built
    {store : AtomStore}
    (invariant : store.Invariant)
    {candidate : Node}
    (wellFormed :
      candidate.WellFormed store.childPool store.nodes.length)
    {tree : AtomTree}
    (decoded : decode store.childPool store.trees candidate = tree)
    (canonical : tree.Canonical) :
    Built store (store.intern candidate) tree := by
  cases search :
      (store.hashBuckets (computeHash candidate store.childPool)).find?
        (fun existing =>
          nodesEqual (store.node existing) candidate store.childPool) with
  | some existing =>
      have interned : store.intern candidate = (existing, store) := by
        simp only [intern, search]
      have same := List.find?_some search
      have inside :=
        invariant.inBounds _ existing (List.mem_of_find?_eq_some search)
      rw [interned]
      refine ⟨invariant, Extends.refl store, inside, ?_⟩
      rw [tree_eq_decode invariant.wellFormed inside,
        decode_eq_of_nodesEqual same, decoded]
  | none =>
      have interned :
          store.intern candidate =
            (store.nodes.length, store.push candidate) := by
        simp only [intern, search, push]
      have fresh :
          ∀ existing < store.nodes.length,
            nodesEqual (store.node existing) candidate store.childPool =
              false :=
        fun existing inside => nodesEqual_eq_false invariant search inside
      rw [interned]
      refine ⟨?_, extends_push, lt_length_push.mpr (Or.inr rfl), ?_⟩
      · exact invariant_push invariant wellFormed (decoded ▸ canonical) fresh
      · rw [tree_push_new invariant.wellFormed wellFormed, decoded]

end Interning

end AtomStore

end AtomCore
