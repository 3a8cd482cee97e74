import Mathlib.Data.List.GetD
import Stocas.Atom.Store

namespace AtomCore

open SymbolTable (Symbol Text)

/-!
# The arena represents trees without duplicates

`AtomStore.Invariant` says what every builder preserves: nodes refer to earlier
slots, equal nodes share a slot, every slot can be found in its hash bucket, and
every slot's tree is canonical.  `AtomStore.Built` is the common postcondition
of the builders: the invariant again, nothing forgotten, and a slot whose tree
is the intended one.  Under the invariant slots and trees determine each other.
-/

/-- What a node at a given slot must satisfy on its own. -/
structure Node.WellFormed
    (childPool : List Nat)
    (index : Nat)
    (node : Node) : Prop where
  inPool : node.childStart + node.childCount ≤ childPool.length
  earlier : ∀ child ∈ node.children childPool, child < index
  leaf : node.tag = .num ∨ node.tag = .var → node.childCount = 0
  binary : node.tag = .pow → node.childCount = 2

namespace Node.WellFormed

variable {childPool : List Nat} {index : Nat} {node : Node}

/-- A node has as many children as it says. -/
theorem length_children
    (wellFormed : node.WellFormed childPool index) :
    (node.children childPool).length = node.childCount := by
  have inPool := wellFormed.inPool
  simp only [Node.children, List.length_take, List.length_drop]
  omega

/-- Appending to the pool leaves the children of earlier nodes alone. -/
theorem children_append
    (wellFormed : node.WellFormed childPool index)
    (added : List Nat) :
    node.children (childPool ++ added) = node.children childPool := by
  have inPool := wellFormed.inPool
  rw [Node.children, Node.children, List.drop_append_of_le_length (by omega),
    List.take_append_of_le_length (by rw [List.length_drop]; omega)]

/-- A well-formed node stays well formed when the pool grows. -/
theorem append
    (wellFormed : node.WellFormed childPool index)
    (added : List Nat) :
    node.WellFormed (childPool ++ added) index where
  inPool := by
    rw [List.length_append]
    exact Nat.le_add_right_of_le wellFormed.inPool
  earlier := by
    rw [wellFormed.children_append added]
    exact wellFormed.earlier
  leaf := wellFormed.leaf
  binary := wellFormed.binary

end Node.WellFormed

namespace AtomStore

/-- Unfolding one more node appends its tree. -/
private theorem trees_concat
    (childPool : List Nat)
    (nodes : List Node)
    (node : Node)
    (buckets : UInt64 → List Nat) :
    trees ⟨nodes ++ [node], childPool, buckets⟩ =
      trees ⟨nodes, childPool, buckets⟩ ++
        [decode childPool (trees ⟨nodes, childPool, buckets⟩) node] := by
  simp [trees, List.foldl_append]

/-- There is one tree for every slot. -/
@[simp] theorem length_trees (store : AtomStore) :
    store.trees.length = store.nodes.length := by
  rcases store with ⟨nodes, childPool, buckets⟩
  induction nodes using List.reverseRecOn with
  | nil =>
      rfl
  | append_singleton nodes node inductionHypothesis =>
      rw [trees_concat]
      simp [inductionHypothesis]

/-- A tree is read off the trees of smaller slots only. -/
theorem decode_congr
    {childPool otherPool : List Nat}
    {known others : List AtomTree}
    {node : Node}
    (sameChildren : node.children childPool = node.children otherPool)
    (sameTrees :
      ∀ child ∈ node.children childPool,
        known.getD child (.num 0) = others.getD child (.num 0)) :
    decode childPool known node = decode otherPool others node := by
  rw [decode, decode, ← sameChildren, List.map_congr_left sameTrees]

/-- Every slot holds a well-formed node. -/
def WellFormed (store : AtomStore) : Prop :=
  ∀ index < store.nodes.length,
    (store.node index).WellFormed store.childPool index

/-- In a well-formed arena every slot's tree is its decoded node. -/
theorem tree_eq_decode
    {store : AtomStore}
    (wellFormed : store.WellFormed)
    {index : Nat}
    (inside : index < store.nodes.length) :
    store.tree index =
      decode store.childPool store.trees (store.node index) := by
  rcases store with ⟨nodes, childPool, buckets⟩
  simp only [WellFormed, tree, node] at wellFormed inside ⊢
  induction nodes using List.reverseRecOn with
  | nil =>
      simp at inside
  | append_singleton nodes last inductionHypothesis =>
      have oldNode :
          ∀ {position : Nat},
            position < nodes.length →
            (nodes ++ [last]).getD position { tag := .num } =
              nodes.getD position { tag := .num } :=
        fun isOld => List.getD_append _ _ _ _ isOld
      have shorter :
          ∀ position < nodes.length,
            (nodes.getD position { tag := .num }).WellFormed
              childPool position := by
        intro position isOld
        rw [← oldNode isOld]
        apply wellFormed position
        rw [List.length_append]
        exact Nat.lt_add_right 1 isOld
      have oldTree :
          ∀ {position : Nat},
            position < nodes.length →
            (trees ⟨nodes ++ [last], childPool, buckets⟩).getD
                position (.num 0) =
              (trees ⟨nodes, childPool, buckets⟩).getD position (.num 0) := by
        intro position isOld
        rw [trees_concat]
        exact List.getD_append _ _ _ _ (by rw [length_trees]; exact isOld)
      by_cases isOld : index < nodes.length
      · rw [oldNode isOld, oldTree isOld, inductionHypothesis shorter isOld]
        refine decode_congr rfl fun child member => ?_
        have smaller := (shorter index isOld).earlier child member
        rw [oldTree (smaller.trans isOld)]
      · have isLast : index = nodes.length := by
          simp only [List.length_append, List.length_singleton] at inside
          omega
        subst index
        have lastNode :
            (nodes ++ [last]).getD nodes.length { tag := .num } = last := by
          simp [List.getD_eq_getElem?_getD]
        have lastWellFormed : last.WellFormed childPool nodes.length := by
          have known := wellFormed nodes.length inside
          rwa [lastNode] at known
        have lastTree :
            (trees ⟨nodes ++ [last], childPool, buckets⟩).getD
                nodes.length (.num 0) =
              decode childPool (trees ⟨nodes, childPool, buckets⟩) last := by
          rw [trees_concat, List.getD_append_right _ _ _ _ (by simp)]
          simp
        rw [lastNode, lastTree]
        refine decode_congr rfl fun child member => ?_
        rw [oldTree (lastWellFormed.earlier child member)]

/-- The newer arena still has everything the older one had. -/
structure Extends (older newer : AtomStore) : Prop where
  nodes : older.nodes <+: newer.nodes
  childPool : older.childPool <+: newer.childPool

namespace Extends

theorem refl (store : AtomStore) : Extends store store :=
  ⟨List.prefix_rfl, List.prefix_rfl⟩

theorem trans
    {older middle newer : AtomStore}
    (first : Extends older middle)
    (second : Extends middle newer) :
    Extends older newer :=
  ⟨first.nodes.trans second.nodes, first.childPool.trans second.childPool⟩

variable {older newer : AtomStore}

/-- Slots of the older arena are slots of the newer one. -/
theorem inside
    (growth : Extends older newer)
    {index : Nat}
    (inside : index < older.nodes.length) :
    index < newer.nodes.length :=
  inside.trans_le growth.nodes.length_le

/-- A slot keeps its node. -/
theorem node
    (growth : Extends older newer)
    {index : Nat}
    (inside : index < older.nodes.length) :
    newer.node index = older.node index := by
  obtain ⟨added, same⟩ := growth.nodes
  rw [AtomStore.node, AtomStore.node, ← same]
  exact List.getD_append _ _ _ _ inside

/-- A slot keeps its children. -/
theorem children
    (growth : Extends older newer)
    (wellFormed : older.WellFormed)
    {index : Nat}
    (inside : index < older.nodes.length) :
    newer.children index = older.children index := by
  obtain ⟨added, same⟩ := growth.childPool
  rw [AtomStore.children, AtomStore.children, growth.node inside, ← same]
  exact (wellFormed index inside).children_append added

/-- A slot keeps its tree. -/
theorem tree
    (growth : Extends older newer)
    (olderWellFormed : older.WellFormed)
    (newerWellFormed : newer.WellFormed)
    {index : Nat}
    (inside : index < older.nodes.length) :
    newer.tree index = older.tree index := by
  induction index using Nat.strong_induction_on with
  | _ index inductionHypothesis =>
      have sameChildren := growth.children olderWellFormed inside
      rw [tree_eq_decode newerWellFormed (growth.inside inside),
        tree_eq_decode olderWellFormed inside, growth.node inside]
      rw [AtomStore.children, AtomStore.children,
        growth.node inside] at sameChildren
      refine decode_congr sameChildren fun child member => ?_
      rw [sameChildren] at member
      have smaller := (olderWellFormed index inside).earlier child member
      exact inductionHypothesis child smaller (smaller.trans inside)

end Extends

section Reading

variable {store : AtomStore} {index : Nat}

/-- The trees of a slot's children, in order. -/
theorem tree_eq_treeOfNode
    (wellFormed : store.WellFormed)
    (inside : index < store.nodes.length) :
    store.tree index =
      treeOfNode (store.node index) ((store.children index).map store.tree) :=
  tree_eq_decode wellFormed inside

/-- The tree of a slot, by its tag. -/
theorem tree_eq_byTag
    (wellFormed : store.WellFormed)
    (inside : index < store.nodes.length) :
    store.tree index =
      match store.tag index with
      | .num => .num (store.asNum index)
      | .var => .var (store.symbolOf index)
      | .add => .add ((store.children index).map store.tree)
      | .mul => .mul ((store.children index).map store.tree)
      | .pow =>
          .pow (((store.children index).map store.tree).getD 0 (.num 0))
            (((store.children index).map store.tree).getD 1 (.num 0))
      | .func => .func (store.symbolOf index) ((store.children index).map store.tree) :=
  tree_eq_treeOfNode wellFormed inside

/-- The tag of a tree is the tag of its node. -/
@[simp] theorem tag_treeOfNode
    (node : Node)
    (trees : List AtomTree) :
    (treeOfNode node trees).tag = node.tag := by
  rcases node with ⟨tag, value, symbol, start, count⟩
  cases tag <;> rfl

/-- `AtomView::tag` shows the tag of the tree. -/
theorem tag_tree
    (wellFormed : store.WellFormed)
    (inside : index < store.nodes.length) :
    (store.tree index).tag = store.tag index := by
  rw [tree_eq_treeOfNode wellFormed inside, tag_treeOfNode, tag]

/-- The children of a node's tree are the trees it was given. -/
theorem children_treeOfNode
    {node : Node}
    {childPool : List Nat}
    (wellFormed : node.WellFormed childPool index)
    {trees : List AtomTree}
    (sameLength : trees.length = node.childCount) :
    (treeOfNode node trees).children = trees := by
  have leaf := wellFormed.leaf
  have binary := wellFormed.binary
  rcases node with ⟨tag, value, symbol, start, count⟩
  cases tag with
  | num | var =>
      have none : trees.length = 0 := sameLength.trans (leaf (by simp))
      rw [List.length_eq_zero_iff.mp none]
      rfl
  | add | mul | func =>
      rfl
  | pow =>
      have two : trees.length = 2 := sameLength.trans (binary rfl)
      obtain ⟨base, exponent, rfl⟩ := List.length_eq_two.mp two
      rfl

/-- `AtomView::child` shows the children of the tree. -/
theorem children_tree
    (wellFormed : store.WellFormed)
    (inside : index < store.nodes.length) :
    (store.tree index).children = (store.children index).map store.tree := by
  rw [tree_eq_treeOfNode wellFormed inside]
  apply children_treeOfNode (wellFormed index inside)
  rw [List.length_map]
  exact (wellFormed index inside).length_children

/-- Comparing the trees of two nodes: by tag, then payload, then children. -/
private theorem compare_treeOfNode
    {otherIndex : Nat}
    {first second : Node}
    {childPool otherPool : List Nat}
    (wellFormed : first.WellFormed childPool index)
    (otherWellFormed : second.WellFormed otherPool otherIndex)
    {trees others : List AtomTree}
    (sameLength : trees.length = first.childCount)
    (otherLength : others.length = second.childCount) :
    AtomTree.compare (treeOfNode first trees) (treeOfNode second others) =
      if first.tag = second.tag then
        match first.tag with
        | .num => Ord.compare first.numValue second.numValue
        | .var => Ord.compare first.symbol.id second.symbol.id
        | .func =>
            (Ord.compare first.symbol.id second.symbol.id).then
              (Lexicographic.lexCompare AtomTree.compare trees others)
        | .add | .mul | .pow =>
            Lexicographic.lexCompare AtomTree.compare trees others
      else
        Ord.compare first.tag.rank second.tag.rank := by
  split_ifs with sameTag
  case neg =>
    rw [AtomTree.compare_of_tag_ne (by simpa using sameTag),
      tag_treeOfNode, tag_treeOfNode]
  have binary := wellFormed.binary
  have otherBinary := otherWellFormed.binary
  rcases first with ⟨tag, value, symbol, start, count⟩
  rcases second with ⟨otherTag, otherValue, otherSymbol, otherStart, otherCount⟩
  cases sameTag
  cases tag with
  | num | var =>
      simp only [treeOfNode, AtomTree.compare]
  | add | mul | func =>
      simp only [treeOfNode, AtomTree.compare,
        AtomTree.compareChildren_eq_lexCompare]
  | pow =>
      obtain ⟨base, exponent, rfl⟩ :=
        List.length_eq_two.mp (sameLength.trans (binary rfl))
      obtain ⟨otherBase, otherExponent, rfl⟩ :=
        List.length_eq_two.mp (otherLength.trans (otherBinary rfl))
      simp only [treeOfNode, AtomTree.compare, Lexicographic.lexCompare,
        List.getD_cons_zero, List.getD_cons_succ, Ordering.then_eq]

/-- The children of a slot are slots created before it. -/
theorem child_lt
    (wellFormed : store.WellFormed)
    (inside : index < store.nodes.length)
    {child : Nat}
    (member : child ∈ store.children index) :
    child < index :=
  (wellFormed index inside).earlier child member

/-- The children of a slot are slots. -/
theorem child_inside
    (wellFormed : store.WellFormed)
    (inside : index < store.nodes.length)
    {child : Nat}
    (member : child ∈ store.children index) :
    child < store.nodes.length :=
  (child_lt wellFormed inside member).trans inside

/-- A power has a base and an exponent, which come before it. -/
theorem children_of_pow
    (wellFormed : store.WellFormed)
    (inside : index < store.nodes.length)
    (isPow : store.tag index = .pow) :
    ∃ base exponent,
      store.children index = [base, exponent] ∧ base < index ∧ exponent < index := by
  have two : (store.children index).length = 2 :=
    (wellFormed index inside).length_children.trans ((wellFormed index inside).binary isPow)
  obtain ⟨base, exponent, pair⟩ := List.length_eq_two.mp two
  refine ⟨base, exponent, pair, ?_, ?_⟩
  · exact child_lt wellFormed inside (by simp [pair])
  · exact child_lt wellFormed inside (by simp [pair])

/-- `operator<=>` on slots, of one store or of two, compares their trees. -/
theorem compareFuel_eq
    {otherStore : AtomStore}
    (wellFormed : store.WellFormed)
    (otherWellFormed : otherStore.WellFormed)
    {fuel otherIndex : Nat}
    (enough : index < fuel)
    (inside : index < store.nodes.length)
    (otherInside : otherIndex < otherStore.nodes.length) :
    compareFuel fuel store index otherStore otherIndex =
      AtomTree.compare (store.tree index) (otherStore.tree otherIndex) := by
  induction fuel generalizing index otherIndex with
  | zero =>
      exact absurd enough (Nat.not_lt_zero index)
  | succ fuel inductionHypothesis =>
      have byChildren :
          Lexicographic.lexCompare
              (fun child otherChild =>
                compareFuel fuel store child otherStore otherChild)
              (store.children index) (otherStore.children otherIndex) =
            Lexicographic.lexCompare AtomTree.compare
              ((store.children index).map store.tree)
              ((otherStore.children otherIndex).map otherStore.tree) := by
        apply Lexicographic.lexCompare_congr
        intro child member otherChild otherMember
        have smaller := child_lt wellFormed inside member
        have otherSmaller := child_lt otherWellFormed otherInside otherMember
        exact inductionHypothesis
          (smaller.trans_le (Nat.le_of_lt_succ enough))
          (smaller.trans inside) (otherSmaller.trans otherInside)
      rw [tree_eq_treeOfNode wellFormed inside,
        tree_eq_treeOfNode otherWellFormed otherInside,
        compare_treeOfNode (wellFormed index inside)
          (otherWellFormed otherIndex otherInside)
          (by rw [List.length_map]
              exact (wellFormed index inside).length_children)
          (by rw [List.length_map]
              exact (otherWellFormed otherIndex otherInside).length_children),
        ← byChildren]
      rfl

/-- `operator<=>` on two slots of one store compares their trees. -/
theorem compareSlots_eq
    (wellFormed : store.WellFormed)
    (inside : index < store.nodes.length)
    {otherIndex : Nat}
    (otherInside : otherIndex < store.nodes.length) :
    store.compareSlots index otherIndex =
      AtomTree.compare (store.tree index) (store.tree otherIndex) :=
  compareFuel_eq wellFormed wellFormed (Nat.lt_succ_self index)
    inside otherInside

end Reading

end AtomStore

end AtomCore
