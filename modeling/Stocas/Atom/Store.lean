import Stocas.Atom.Tree
import Stocas.Library.Run
import Stocas.Numerica.Decimal

namespace AtomCore

open SymbolTable (Symbol Text)
open NumericaCore (rationalToString)

/-!
# The interning arena

`AtomStore` keeps its nodes in one vector, the children of all nodes in one
pool, and an unordered map from structural hashes to the slots that have them.
A slot never changes.  Slots are 32-bit in the source; the arena is taken to
hold fewer than `2 ^ 32` nodes and pooled children, so they are `Nat` here.
-/

/-- `std::hash<std::string>`, which the implementation is free to choose. -/
class StringHash where
  hash : Text → UInt64

/-- `Node`: a tag, the payload of its kind, and a range of the child pool. -/
structure Node where
  tag : AtomTag
  numValue : ℚ := 0
  symbolValue : Option Symbol := none
  childStart : Nat := 0
  childCount : Nat := 0
  deriving Repr, DecidableEq

/-- The child slots of a node. -/
def Node.children (childPool : List Nat) (node : Node) : List Nat :=
  (childPool.drop node.childStart).take node.childCount

/-- The symbol of a `Var` or `Fun` node, which is always present. -/
def Node.symbol (node : Node) : Symbol :=
  node.symbolValue.getD ⟨0⟩

/-- `hash_combine`. -/
def hashCombine (seed value : UInt64) : UInt64 :=
  seed ^^^
    (value + 0x9e3779b97f4a7c15 + (seed <<< (6 : UInt64)) + (seed >>> (2 : UInt64)))

/-- `hash_rational`. -/
def hashRational [StringHash] (value : ℚ) : UInt64 :=
  StringHash.hash (rationalToString value)

/-- `compute_hash`: tag, payload and child slots of a node. -/
def computeHash
    [StringHash]
    (node : Node)
    (childPool : List Nat) :
    UInt64 :=
  let tagged := hashCombine 0 (UInt64.ofNat node.tag.rank)
  let numbered :=
    if node.tag = .num then
      hashCombine tagged (hashRational node.numValue)
    else
      tagged
  let named :=
    if node.tag = .var ∨ node.tag = .func then
      hashCombine numbered (UInt64.ofNat node.symbol.id)
    else
      numbered
  (node.children childPool).foldl
    (fun hash child => hashCombine hash (UInt64.ofNat child)) named

/-- `nodes_equal`: equality of tag, payload and child slots. -/
def nodesEqual (first second : Node) (childPool : List Nat) : Bool :=
  first.tag == second.tag &&
    (first.tag != .num || first.numValue == second.numValue) &&
    ((first.tag != .var && first.tag != .func) ||
      first.symbol.id == second.symbol.id) &&
    first.children childPool == second.children childPool

/-- `AtomStore::Impl`. -/
structure AtomStore where
  nodes : List Node
  childPool : List Nat
  hashBuckets : UInt64 → List Nat

namespace AtomStore

/-- A store before the first builder call. -/
def empty : AtomStore where
  nodes := []
  childPool := []
  hashBuckets := fun _ => []

/-- The node of a slot; reading past the arena is undefined in the source. -/
def node (store : AtomStore) (index : Nat) : Node :=
  store.nodes.getD index { tag := .num }

/-- `AtomView::tag`. -/
def tag (store : AtomStore) (index : Nat) : AtomTag :=
  (store.node index).tag

/-- `AtomView::as_num`, on a `Num` slot. -/
def asNum (store : AtomStore) (index : Nat) : ℚ :=
  (store.node index).numValue

/-- `AtomView::as_var` or `AtomView::function_head`, on a slot that has one. -/
def symbolOf (store : AtomStore) (index : Nat) : Symbol :=
  (store.node index).symbol

/-- `AtomView::child` for every index below `child_count`, in order. -/
def children (store : AtomStore) (index : Nat) : List Nat :=
  (store.node index).children store.childPool

/--
`AtomView::operator<=>`, whose operands may come from two stores.  The fuel
bounds the depth of the recursion; a slot's own index always suffices because
children are created before their parents.
-/
def compareFuel : Nat → AtomStore → Nat → AtomStore → Nat → Ordering
  | 0, _, _, _, _ => .eq
  | fuel + 1, store, index, otherStore, otherIndex =>
      let first := store.node index
      let second := otherStore.node otherIndex
      let byChildren :=
        Lexicographic.lexCompare
          (fun child otherChild =>
            compareFuel fuel store child otherStore otherChild)
          (first.children store.childPool)
          (second.children otherStore.childPool)
      if first.tag = second.tag then
        match first.tag with
        | .num => Ord.compare first.numValue second.numValue
        | .var => Ord.compare first.symbol.id second.symbol.id
        | .func =>
            (Ord.compare first.symbol.id second.symbol.id).then byChildren
        | .add | .mul | .pow => byChildren
      else
        Ord.compare first.tag.rank second.tag.rank

/-- `operator<=>` on two slots of one store. -/
def compareSlots (store : AtomStore) (first second : Nat) : Ordering :=
  compareFuel (first + 1) store first store second

/-- `operator==` on two slots of one store. -/
def slotsEqual (store : AtomStore) (first second : Nat) : Bool :=
  store.compareSlots first second == .eq

/-- `AtomView::same_slot` on two views of one store. -/
def sameSlot (first second : Nat) : Bool :=
  first == second

section Builders

variable [StringHash]

/-- `AtomStore::Impl::intern`: the slot of an equal node, or a new slot. -/
def intern (store : AtomStore) (candidate : Node) : Nat × AtomStore :=
  let hash := computeHash candidate store.childPool
  let bucket := store.hashBuckets hash
  match bucket.find? fun existing =>
      nodesEqual (store.node existing) candidate store.childPool with
  | some existing => (existing, store)
  | none =>
      let newIndex := store.nodes.length
      (newIndex,
        { store with
          nodes := store.nodes ++ [candidate]
          hashBuckets :=
            Function.update store.hashBuckets hash (bucket ++ [newIndex]) })

/-- `AtomStore::num`. -/
def num (store : AtomStore) (value : ℚ) : Nat × AtomStore :=
  store.intern { tag := .num, numValue := value }

/-- `AtomStore::var`. -/
def var (store : AtomStore) (symbol : Symbol) : Nat × AtomStore :=
  store.intern { tag := .var, symbolValue := some symbol }

/-- Intern a node whose children are appended to the pool first. -/
def internWith
    (store : AtomStore)
    (tag : AtomTag)
    (symbolValue : Option Symbol)
    (children : List Nat) :
    Nat × AtomStore :=
  { store with childPool := store.childPool ++ children }.intern
    { tag := tag
      symbolValue := symbolValue
      childStart := store.childPool.length
      childCount := children.length }

/-- `AtomStore::flatten_operands`. -/
def flattenOperands
    (store : AtomStore)
    (operands : List Nat)
    (flattenTag : AtomTag) :
    List Nat :=
  operands.flatMap fun operand =>
    if store.tag operand = flattenTag then
      store.children operand
    else
      [operand]

/-- `AtomStore::build_variadic`: flatten, sort by `operator<=>` and intern. -/
def buildVariadic
    (store : AtomStore)
    (tag : AtomTag)
    (operands : List Nat) :
    Nat × AtomStore :=
  store.internWith tag none
    ((store.flattenOperands operands tag).insertionSort
      fun first second => store.compareSlots second first ≠ .lt)

/-- `AtomStore::add`. -/
def add (store : AtomStore) (terms : List Nat) : Nat × AtomStore :=
  store.buildVariadic .add terms

/-- `AtomStore::mul`. -/
def mul (store : AtomStore) (factors : List Nat) : Nat × AtomStore :=
  store.buildVariadic .mul factors

/-- `AtomStore::pow`. -/
def pow (store : AtomStore) (base exponent : Nat) : Nat × AtomStore :=
  store.internWith .pow none [base, exponent]

/-- `AtomStore::fun`. -/
def func
    (store : AtomStore)
    (head : Symbol)
    (arguments : List Nat) :
    Nat × AtomStore :=
  store.internWith .func (some head) arguments

end Builders

/-- The tree of a node whose children have the given trees. -/
def treeOfNode (node : Node) (trees : List AtomTree) : AtomTree :=
  match node.tag with
  | .num => .num node.numValue
  | .var => .var node.symbol
  | .add => .add trees
  | .mul => .mul trees
  | .pow => .pow (trees.getD 0 (.num 0)) (trees.getD 1 (.num 0))
  | .func => .func node.symbol trees

/-- The tree of a node when the trees of all earlier slots are known. -/
def decode (childPool : List Nat) (known : List AtomTree) (node : Node) :
    AtomTree :=
  treeOfNode node
    ((node.children childPool).map fun child => known.getD child (.num 0))

/-- The trees of all slots, unfolded in creation order. -/
def trees (store : AtomStore) : List AtomTree :=
  store.nodes.foldl
    (fun known node => known ++ [decode store.childPool known node]) []

/-- The tree below a slot. -/
def tree (store : AtomStore) (index : Nat) : AtomTree :=
  store.trees.getD index (.num 0)

end AtomStore

end AtomCore
