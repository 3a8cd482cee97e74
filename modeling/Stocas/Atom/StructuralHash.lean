import Stocas.Atom.Builders

namespace AtomCore

open Transition (run)

/-!
# The structural hash across stores

`operator==` compares the trees below two views, from whichever stores they come.
`structural_hash` combines the tag and the payload of a node with the numbers of its
child slots, and these numbers depend on what the store was filled with before.  The
payload part is a function of the tree; what is left is the fold over the slots.
-/

/-- The part of `compute_hash` before its loop: tag and payload of a node. -/
def headHash [StringHash] (node : Node) : UInt64 :=
  computeHash { node with childCount := 0 } []

/-- The loop of `compute_hash` over the child slots. -/
def combineSlots (head : UInt64) (slots : List Nat) : UInt64 :=
  slots.foldl (fun hash child => hashCombine hash (UInt64.ofNat child)) head

/-- `hash_combine` tells the values apart that are combined with one seed. -/
theorem hashCombine_injective (seed : UInt64) :
    Function.Injective (hashCombine seed) := by
  intro value other same
  have summed := congrArg (fun hash => seed ^^^ hash) same
  simp only [hashCombine, ← UInt64.xor_assoc, UInt64.xor_self, UInt64.zero_xor] at summed
  simpa only [UInt64.add_left_inj] using summed

theorem combineSlots_append
    (head : UInt64)
    (slots later : List Nat) :
    combineSlots head (slots ++ later) = combineSlots (combineSlots head slots) later :=
  List.foldl_append

namespace AtomStore

open BuilderCall (step)

/-- `AtomView::operator==`, on slots of two stores. -/
def equalAcross (store : AtomStore) (index : Nat) (other : AtomStore) (otherIndex : Nat) :
    Bool :=
  compareFuel (index + 1) store index other otherIndex == .eq

/-- Views are equal when the trees below them are. -/
theorem equalAcross_iff
    {store other : AtomStore}
    (wellFormed : store.WellFormed)
    (otherWellFormed : other.WellFormed)
    {index otherIndex : Nat}
    (inside : index < store.nodes.length)
    (otherInside : otherIndex < other.nodes.length) :
    store.equalAcross index other otherIndex = true ↔
      store.tree index = other.tree otherIndex := by
  rw [equalAcross, beq_iff_eq,
    compareFuel_eq wellFormed otherWellFormed (Nat.lt_succ_self index) inside otherInside]
  exact AtomTree.compare_eq_iff

section Hash

variable [StringHash]

/-- `AtomView::structural_hash`. -/
def structuralHash (store : AtomStore) (index : Nat) : UInt64 :=
  computeHash (store.node index) store.childPool

theorem structuralHash_eq (store : AtomStore) (index : Nat) :
    store.structuralHash index =
      combineSlots (headHash (store.node index)) (store.children index) :=
  rfl

/-- Tag and payload are hashed as the tree shows them. -/
theorem headHash_congr
    {first second : Node}
    {trees others : List AtomTree}
    (same : treeOfNode first trees = treeOfNode second others) :
    headHash first = headHash second := by
  have sameTag : first.tag = second.tag := by
    have tags := congrArg AtomTree.tag same
    rwa [tag_treeOfNode, tag_treeOfNode] at tags
  simp only [treeOfNode, ← sameTag] at same
  apply computeHash_congr
  rw [nodesEqual_iff]
  refine ⟨sameTag, ?_, ?_, rfl⟩
  · intro isNum
    rw [show first.tag = .num from isNum] at same
    exact AtomTree.num.inj same
  · rintro (isVar | isFunc)
    · rw [show first.tag = .var from isVar] at same
      exact AtomTree.var.inj same
    · rw [show first.tag = .func from isFunc] at same
      exact (AtomTree.func.inj same).1

/-- Equal views differ in their hashes by the numbers of their child slots only. -/
theorem structuralHash_of_equal
    {store other : AtomStore}
    (wellFormed : store.WellFormed)
    (otherWellFormed : other.WellFormed)
    {index otherIndex : Nat}
    (inside : index < store.nodes.length)
    (otherInside : otherIndex < other.nodes.length)
    (same : store.tree index = other.tree otherIndex) :
    ∃ head,
      store.structuralHash index = combineSlots head (store.children index) ∧
        other.structuralHash otherIndex = combineSlots head (other.children otherIndex) := by
  rw [tree_eq_treeOfNode wellFormed inside,
    tree_eq_treeOfNode otherWellFormed otherInside] at same
  refine ⟨headHash (store.node index), structuralHash_eq store index, ?_⟩
  rw [headHash_congr same]
  exact structuralHash_eq other otherIndex

omit [StringHash] in
/-- Slot lists that differ at their ends only are told apart. -/
theorem combineSlots_concat_inj
    {head : UInt64}
    {slots : List Nat}
    {last otherLast : Nat}
    (lastBound : last < 2 ^ 64)
    (otherBound : otherLast < 2 ^ 64) :
    combineSlots head (slots ++ [last]) = combineSlots head (slots ++ [otherLast]) ↔
      last = otherLast := by
  rw [combineSlots_append, combineSlots_append]
  constructor
  · intro same
    have values := congrArg UInt64.toNat (hashCombine_injective _ same)
    rwa [UInt64.toNat_ofNat_of_lt' lastBound, UInt64.toNat_ofNat_of_lt' otherBound] at values
  · rintro rfl
    rfl

/--
Equal views with the same child slots have the same hash.  When only the last children
are in different slots, as for every function of one argument, the hashes differ.
-/
theorem structuralHash_consistent_of_slots
    {store other : AtomStore}
    (reachable : store.Reachable)
    (otherReachable : other.Reachable)
    {index otherIndex : Nat}
    (inside : index < store.nodes.length)
    (otherInside : otherIndex < other.nodes.length)
    (equal : store.equalAcross index other otherIndex = true) :
    (store.children index = other.children otherIndex →
      store.structuralHash index = other.structuralHash otherIndex) ∧
    ((store.children index).dropLast = (other.children otherIndex).dropLast →
      store.nodes.length ≤ 2 ^ 32 →
      other.nodes.length ≤ 2 ^ 32 →
      (store.structuralHash index = other.structuralHash otherIndex ↔
        store.children index = other.children otherIndex)) := by
  have wellFormed := reachable.invariant.wellFormed
  have otherWellFormed := otherReachable.invariant.wellFormed
  have same := (equalAcross_iff wellFormed otherWellFormed inside otherInside).mp equal
  obtain ⟨head, hash_eq, otherHash_eq⟩ :=
    structuralHash_of_equal wellFormed otherWellFormed inside otherInside same
  rw [hash_eq, otherHash_eq]
  refine ⟨fun slots => by rw [slots], fun init fits otherFits => ?_⟩
  have childBound : ∀ child ∈ store.children index, child < 2 ^ 64 :=
    fun child member =>
      (child_inside wellFormed inside member).trans_le (fits.trans (by decide))
  have otherBound : ∀ child ∈ other.children otherIndex, child < 2 ^ 64 :=
    fun child member =>
      (child_inside otherWellFormed otherInside member).trans_le (otherFits.trans (by decide))
  have sameLength : (store.children index).length = (other.children otherIndex).length := by
    have children := congrArg (fun tree => tree.children.length) same
    simpa only [children_tree wellFormed inside, children_tree otherWellFormed otherInside,
      List.length_map] using children
  rcases List.eq_nil_or_concat' (store.children index) with none | ⟨slots, last, slots_eq⟩
  · rw [none, List.length_nil] at sameLength
    rw [none, List.length_eq_zero_iff.mp sameLength.symm]
    exact ⟨fun _ => rfl, fun _ => rfl⟩
  · rcases List.eq_nil_or_concat' (other.children otherIndex) with
      none | ⟨otherSlots, otherLast, other_eq⟩
    · rw [slots_eq, none] at sameLength
      simp at sameLength
    · rw [slots_eq, other_eq, List.dropLast_concat, List.dropLast_concat] at init
      subst init
      rw [slots_eq, other_eq, combineSlots_concat_inj (childBound last (by simp [slots_eq]))
        (otherBound otherLast (by simp [other_eq])), List.append_cancel_left_eq,
        List.singleton_inj]

omit [StringHash] in
/-- `f(x)` in a store where `x` came first, and in one where `x` and `y` did. -/
theorem structuralHash_consistent_of_slots_func :
    let constant : StringHash := ⟨fun _ => 0⟩
    let store := run (@step constant) empty [.var ⟨0⟩, .func ⟨1⟩ [0]]
    let other := run (@step constant) empty [.var ⟨0⟩, .var ⟨2⟩, .func ⟨1⟩ [0]]
    @structuralHash constant store 1 = @structuralHash constant other 2 := by
  refine (@structuralHash_consistent_of_slots ⟨fun _ => 0⟩ _ _ ⟨_, ?_, rfl⟩ ⟨_, ?_, rfl⟩
    _ _ ?_ ?_ ?_).1 ?_
  · simp only [Transition.everyStep_cons]
    refine ⟨?_, ?_, Transition.everyStep_nil⟩ <;> decide
  · simp only [Transition.everyStep_cons]
    refine ⟨?_, ?_, ?_, Transition.everyStep_nil⟩ <;> decide
  all_goals decide

omit [StringHash] in
/-- `f(x)` in a store where `x` came first, and in one where `y` did: equal, hashed apart. -/
theorem structuralHash_differs_across_stores :
    let constant : StringHash := ⟨fun _ => 0⟩
    let store := run (@step constant) empty [.var ⟨0⟩, .func ⟨1⟩ [0]]
    let other := run (@step constant) empty [.var ⟨2⟩, .var ⟨0⟩, .func ⟨1⟩ [1]]
    @Reachable constant store ∧ @Reachable constant other ∧
      1 < store.nodes.length ∧ 2 < other.nodes.length ∧
      store.equalAcross 1 other 2 = true ∧
      @structuralHash constant store 1 ≠ @structuralHash constant other 2 := by
  refine ⟨⟨_, ?_, rfl⟩, ⟨_, ?_, rfl⟩, ?_, ?_, ?_, ?_⟩
  · simp only [Transition.everyStep_cons]
    refine ⟨?_, ?_, Transition.everyStep_nil⟩ <;> decide
  · simp only [Transition.everyStep_cons]
    refine ⟨?_, ?_, ?_, Transition.everyStep_nil⟩ <;> decide
  all_goals decide

end Hash

end AtomStore

end AtomCore
