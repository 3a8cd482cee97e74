import Stocas.Atom.Builders
import Stocas.Atom.Normalize

namespace AtomCore

namespace AtomStore

/-!
# Normalization in the arena

`normalize` reads slots and calls the builders, so every step may grow the
arena.  The loops here thread the store as the source does, and each is shown to
deliver the slot of the tree that the normalization of trees computes.
-/

open AtomTree (Totals sumTotals productTotals)

section Normalize

variable [StringHash]

/-- `split_coefficient`, as term and coefficient. -/
def splitCoefficient (store : AtomStore) (index : Nat) : Nat × ℚ :=
  match store.tag index, store.children index with
  | .mul, [coefficient, rest] =>
      if store.tag coefficient = .num then
        (rest, store.asNum coefficient)
      else
        (index, 1)
  | _, _ => (index, 1)

/-- `split_power`, as base and exponent. -/
def splitPower (store : AtomStore) (index : Nat) : Nat × ℚ :=
  match store.tag index, store.children index with
  | .pow, [base, exponent] =>
      if store.tag exponent = .num then
        (base, store.asNum exponent)
      else
        (index, 1)
  | _, _ => (index, 1)

/-- What tells `normalize_add` and `normalize_mul` apart, on slots. -/
structure SlotCollector extends Totals where
  split : AtomStore → Nat → Nat × ℚ
  rebuild : AtomStore → Nat → ℚ → Nat × AtomStore
  build : AtomStore → List Nat → Nat × AtomStore

/-- A computation that normalizes one child in the current store. -/
abbrev ChildNormalizer : Type := AtomStore → Nat → Nat × AtomStore

namespace SlotCollector

/-- The loop over the children, each normalized first. -/
def collect
    (collector : SlotCollector)
    (normalizeChild : ChildNormalizer) :
    AtomStore → List Nat → List (Nat × ℚ) → ℚ →
      Except ℚ (List (Nat × ℚ) × ℚ) × AtomStore
  | store, [], entries, constant => (.ok (entries, constant), store)
  | store, child :: rest, entries, constant =>
      let (operand, store) := normalizeChild store child
      if store.tag operand = .num then
        let value := store.asNum operand
        if collector.absorbing = some value then
          (.error value, store)
        else
          collector.collect normalizeChild store rest entries
            (collector.combine constant value)
      else
        let entry := collector.split store operand
        collector.collect normalizeChild store rest
          (OrderedMap.accumulate store.compareSlots entry.1 entry.2 entries)
          constant

/-- The loop over the entries that makes the operands. -/
def rebuilt (collector : SlotCollector) :
    AtomStore → List (Nat × ℚ) → List Nat × AtomStore
  | store, [] => ([], store)
  | store, (key, amount) :: rest =>
      if amount = 0 then
        collector.rebuilt store rest
      else if amount = 1 then
        let (operands, store) := collector.rebuilt store rest
        (key :: operands, store)
      else
        let (operand, store) := collector.rebuild store key amount
        let (operands, store) := collector.rebuilt store rest
        (operand :: operands, store)

/-- The operands after collection, with the number last. -/
def collected
    (collector : SlotCollector)
    (store : AtomStore)
    (entries : List (Nat × ℚ))
    (constant : ℚ) :
    List Nat × AtomStore :=
  let (operands, store) := collector.rebuilt store entries
  if constant ≠ collector.neutral ∨ operands = [] then
    let (number, store) := store.num constant
    (operands ++ [number], store)
  else
    (operands, store)

/-- `normalize_add` and `normalize_mul`, on the children of a node. -/
def finish
    (collector : SlotCollector)
    (normalizeChild : ChildNormalizer)
    (store : AtomStore)
    (children : List Nat) :
    Nat × AtomStore :=
  match collector.collect normalizeChild store children [] collector.neutral with
  | (.error value, store) => store.num value
  | (.ok (entries, constant), store) =>
      match collector.collected store entries constant with
      | ([only], store) => (only, store)
      | (operands, store) => collector.build store operands

end SlotCollector

/-- The parameters of `normalize_add`. -/
def sumSlots : SlotCollector where
  toTotals := sumTotals
  split := splitCoefficient
  rebuild := fun store term coefficient =>
    let (number, store) := store.num coefficient
    store.mul [number, term]
  build := fun store children => store.add children

/-- The parameters of `normalize_mul`. -/
def productSlots : SlotCollector where
  toTotals := productTotals
  split := splitPower
  rebuild := fun store base exponent =>
    let (number, store) := store.num exponent
    store.pow base number
  build := fun store factors => store.mul factors

/-- `normalize_pow`. -/
def normalizePow
    (normalizeChild : ChildNormalizer)
    (store : AtomStore)
    (children : List Nat) :
    Nat × AtomStore :=
  let (base, store) := normalizeChild store (children.getD 0 0)
  let (exponent, store) := normalizeChild store (children.getD 1 0)
  if store.tag exponent = .num then
    if store.asNum exponent = 0 then
      store.num 1
    else if store.asNum exponent = 1 then
      (base, store)
    else
      store.pow base exponent
  else
    store.pow base exponent

/-- The normalized arguments of `normalize_fun`. -/
def normalizeArguments
    (normalizeChild : ChildNormalizer) :
    AtomStore → List Nat → List Nat × AtomStore
  | store, [] => ([], store)
  | store, child :: rest =>
      let (argument, store) := normalizeChild store child
      let (arguments, store) := normalizeArguments normalizeChild store rest
      (argument :: arguments, store)

/-- `normalize_fun`. -/
def normalizeFunc
    (normalizeChild : ChildNormalizer)
    (store : AtomStore)
    (head : SymbolTable.Symbol)
    (children : List Nat) :
    Nat × AtomStore :=
  let (arguments, store) := normalizeArguments normalizeChild store children
  store.func head arguments

/-- `normalize`, with fuel for the depth of the recursion. -/
def normalizeFuel : Nat → ChildNormalizer
  | 0, store, index => (index, store)
  | fuel + 1, store, index =>
      match store.tag index with
      | .num => store.num (store.asNum index)
      | .var => store.var (store.symbolOf index)
      | .add => sumSlots.finish (normalizeFuel fuel) store (store.children index)
      | .mul =>
          productSlots.finish (normalizeFuel fuel) store (store.children index)
      | .pow => normalizePow (normalizeFuel fuel) store (store.children index)
      | .func =>
          normalizeFunc (normalizeFuel fuel) store (store.symbolOf index)
            (store.children index)

/-- `normalize`; children come before their node, so its index is fuel enough. -/
def normalize (store : AtomStore) (index : Nat) : Nat × AtomStore :=
  normalizeFuel (index + 1) store index

/-- Slots of an older arena have the trees they had. -/
theorem Built.tree_old
    {store : AtomStore}
    {result : Nat × AtomStore}
    {tree : AtomTree}
    (built : Built store result tree)
    (invariant : store.Invariant)
    {index : Nat}
    (inside : index < store.nodes.length) :
    result.2.tree index = store.tree index :=
  built.growth.tree invariant.wellFormed built.invariant.wellFormed inside

/-- Slots of an older arena, as a list, have the trees they had. -/
theorem Extends.map_tree
    {older newer : AtomStore}
    (growth : Extends older newer)
    (olderInvariant : older.Invariant)
    (newerInvariant : newer.Invariant)
    {slots : List Nat}
    (inside : ∀ slot ∈ slots, slot < older.nodes.length) :
    slots.map newer.tree = slots.map older.tree :=
  List.map_congr_left fun slot member =>
    growth.tree olderInvariant.wellFormed newerInvariant.wellFormed
      (inside slot member)

/-- A later arena continues an earlier one. -/
theorem Built.trans
    {store middle : AtomStore}
    {result : Nat × AtomStore}
    {tree : AtomTree}
    (growth : Extends store middle)
    (built : Built middle result tree) :
    Built store result tree :=
  ⟨built.invariant, growth.trans built.growth, built.inside, built.tree_eq⟩

/-- A list of slots of the grown arena with these trees. -/
structure BuiltAll
    (store : AtomStore)
    (result : List Nat × AtomStore)
    (trees : List AtomTree) : Prop where
  invariant : result.2.Invariant
  growth : Extends store result.2
  inside : ∀ slot ∈ result.1, slot < result.2.nodes.length
  trees_eq : result.1.map result.2.tree = trees

/-- No slots are built in no steps. -/
theorem builtAll_nil
    {store : AtomStore}
    (invariant : store.Invariant) :
    BuiltAll store ([], store) [] :=
  ⟨invariant, Extends.refl store, nofun, rfl⟩

/-- A later arena continues an earlier one. -/
theorem BuiltAll.trans
    {store middle : AtomStore}
    {result : List Nat × AtomStore}
    {trees : List AtomTree}
    (growth : Extends store middle)
    (built : BuiltAll middle result trees) :
    BuiltAll store result trees :=
  ⟨built.invariant, growth.trans built.growth, built.inside, built.trees_eq⟩

/-- One slot more, built before the others. -/
theorem Built.cons
    {store : AtomStore}
    {first : Nat × AtomStore}
    {tree : AtomTree}
    (built : Built store first tree)
    {rest : List Nat × AtomStore}
    {trees : List AtomTree}
    (later : BuiltAll first.2 rest trees) :
    BuiltAll store (first.1 :: rest.1, rest.2) (tree :: trees) where
  invariant := later.invariant
  growth := built.growth.trans later.growth
  inside := by
    intro slot member
    rcases List.mem_cons.mp member with rfl | member
    · exact later.growth.inside built.inside
    · exact later.inside slot member
  trees_eq := by
    rw [List.map_cons, later.trees_eq,
      later.growth.tree built.invariant.wellFormed
        later.invariant.wellFormed built.inside,
      built.tree_eq]

/-- The only slot of a list. -/
theorem BuiltAll.only
    {store : AtomStore}
    {only : Nat}
    {grown : AtomStore}
    {tree : AtomTree}
    (built : BuiltAll store ([only], grown) [tree]) :
    Built store (only, grown) tree :=
  ⟨built.invariant, built.growth, built.inside only (by simp),
    (List.cons.inj built.trees_eq).1⟩

/-- The sum of slots that are built. -/
theorem BuiltAll.add
    {store : AtomStore}
    {terms : List Nat × AtomStore}
    {trees : List AtomTree}
    (built : BuiltAll store terms trees) :
    Built store (terms.2.add terms.1) (.mkAdd trees) := by
  have sum := add_built built.invariant built.inside
  rw [built.trees_eq] at sum
  exact sum.trans built.growth

/-- The product of slots that are built. -/
theorem BuiltAll.mul
    {store : AtomStore}
    {factors : List Nat × AtomStore}
    {trees : List AtomTree}
    (built : BuiltAll store factors trees) :
    Built store (factors.2.mul factors.1) (.mkMul trees) := by
  have product := mul_built built.invariant built.inside
  rw [built.trees_eq] at product
  exact product.trans built.growth

/-- A call on slots that are built. -/
theorem BuiltAll.func
    {store : AtomStore}
    {arguments : List Nat × AtomStore}
    {trees : List AtomTree}
    (built : BuiltAll store arguments trees)
    (head : SymbolTable.Symbol) :
    Built store (arguments.2.func head arguments.1) (.func head trees) := by
  have call := func_built built.invariant head built.inside
  rw [built.trees_eq] at call
  exact call.trans built.growth

/-- A power of two slots that are built one after the other. -/
theorem Built.pow
    {store : AtomStore}
    {base exponent : Nat × AtomStore}
    {baseTree exponentTree : AtomTree}
    (baseBuilt : Built store base baseTree)
    (exponentBuilt : Built base.2 exponent exponentTree) :
    Built store (exponent.2.pow base.1 exponent.1) (.pow baseTree exponentTree) := by
  have power :=
    pow_built exponentBuilt.invariant
      (exponentBuilt.growth.inside baseBuilt.inside) exponentBuilt.inside
  rw [exponentBuilt.tree_old baseBuilt.invariant baseBuilt.inside, baseBuilt.tree_eq,
    exponentBuilt.tree_eq] at power
  exact power.trans (baseBuilt.growth.trans exponentBuilt.growth)

/-- A slot of the arena is built already. -/
theorem built_self
    {store : AtomStore}
    (invariant : store.Invariant)
    {index : Nat}
    (inside : index < store.nodes.length) :
    Built store (index, store) (store.tree index) :=
  ⟨invariant, Extends.refl store, inside, rfl⟩

omit [StringHash] in
/-- `as_num` shows the value of a `Num`, and only these have one. -/
theorem numValue?_tree
    {store : AtomStore}
    (wellFormed : store.WellFormed)
    {index : Nat}
    (inside : index < store.nodes.length) :
    (store.tree index).numValue? =
      if store.tag index = .num then some (store.asNum index) else none := by
  rw [tree_eq_treeOfNode wellFormed inside, treeOfNode, tag, asNum]
  cases (store.node index).tag <;> rfl

omit [StringHash] in
/-- The tree of a slot that shows a number. -/
theorem tree_of_num
    {store : AtomStore}
    (wellFormed : store.WellFormed)
    {index : Nat}
    (inside : index < store.nodes.length)
    (isNum : store.tag index = .num) :
    store.tree index = .num (store.asNum index) := by
  apply AtomTree.eq_num_of_numValue?
  rw [numValue?_tree wellFormed inside, if_pos isNum]

/-- What a split of a slot shows about the split of its tree. -/
structure SplitsAs
    (store : AtomStore)
    (slots : Nat × ℚ)
    (trees : AtomTree × ℚ) : Prop where
  inside : slots.1 < store.nodes.length
  same : trees = (store.tree slots.1, slots.2)

/-- The slots' collector follows the collector of trees. -/
structure SlotCollector.Refines
    (slots : SlotCollector)
    (trees : AtomTree.Collector) : Prop where
  totals : slots.toTotals = trees.toTotals
  split :
    ∀ {store : AtomStore} {index : Nat},
      store.Invariant →
      index < store.nodes.length →
      SplitsAs store (slots.split store index) (trees.split (store.tree index))
  rebuild :
    ∀ {store : AtomStore} {key : Nat} (amount : ℚ),
      store.Invariant →
      key < store.nodes.length →
      Built store (slots.rebuild store key amount)
        (trees.rebuild (store.tree key) amount)
  build :
    ∀ {store : AtomStore} {operands : List Nat},
      store.Invariant →
      (∀ operand ∈ operands, operand < store.nodes.length) →
      Built store (slots.build store operands)
        (trees.build (operands.map store.tree))

omit [StringHash] in
/-- Two children of a slot, as trees. -/
theorem tree_of_pair
    {store : AtomStore}
    (wellFormed : store.WellFormed)
    {index first second : Nat}
    (inside : index < store.nodes.length)
    (pair : store.children index = [first, second]) :
    first < store.nodes.length ∧ second < store.nodes.length ∧
      (store.tree index).children = [store.tree first, store.tree second] := by
  have childInside :
      ∀ child ∈ store.children index, child < store.nodes.length :=
    fun child member => child_inside wellFormed inside member
  rw [pair] at childInside
  refine ⟨childInside first (by simp), childInside second (by simp), ?_⟩
  rw [children_tree wellFormed inside, pair]
  rfl

omit [StringHash] in
/-- A slot whose tree has two children has two children. -/
private theorem exists_pair
    {store : AtomStore}
    (wellFormed : store.WellFormed)
    {index : Nat}
    (inside : index < store.nodes.length)
    {first second : AtomTree}
    (pair : (store.tree index).children = [first, second]) :
    ∃ slot other, store.children index = [slot, other] := by
  rw [children_tree wellFormed inside] at pair
  have length := congrArg List.length pair
  rw [List.length_map] at length
  exact List.length_eq_two.mp length

/-- Reading a coefficient off a slot reads it off the tree. -/
theorem splitCoefficient_refines
    {store : AtomStore}
    (invariant : store.Invariant)
    {index : Nat}
    (inside : index < store.nodes.length) :
    SplitsAs store (store.splitCoefficient index)
      (AtomTree.splitCoefficient (store.tree index)) := by
  have wellFormed := invariant.wellFormed
  have sameTag := tag_tree wellFormed inside
  rw [splitCoefficient.eq_def]
  split
  case h_1 coefficient rest isMul pair =>
    obtain ⟨coefficientInside, restInside, children⟩ :=
      tree_of_pair wellFormed inside pair
    have isTree := AtomTree.eq_mul_of_children (sameTag.trans isMul) children
    split_ifs with isNum
    · rw [isTree, tree_of_num wellFormed coefficientInside isNum]
      exact ⟨restInside, rfl⟩
    · refine ⟨inside, AtomTree.splitCoefficient_eq_self ?_⟩
      rintro value other same
      rw [isTree, AtomTree.mul.injEq, List.cons.injEq] at same
      rw [← tag_tree wellFormed coefficientInside, same.1] at isNum
      exact isNum rfl
  case h_2 notPair =>
    refine ⟨inside, AtomTree.splitCoefficient_eq_self ?_⟩
    rintro value other same
    obtain ⟨slot, next, pair⟩ :=
      exists_pair wellFormed inside (congrArg AtomTree.children same)
    exact notPair slot next (sameTag ▸ congrArg AtomTree.tag same) pair

/-- Reading an exponent off a slot reads it off the tree. -/
theorem splitPower_refines
    {store : AtomStore}
    (invariant : store.Invariant)
    {index : Nat}
    (inside : index < store.nodes.length) :
    SplitsAs store (store.splitPower index)
      (AtomTree.splitPower (store.tree index)) := by
  have wellFormed := invariant.wellFormed
  have sameTag := tag_tree wellFormed inside
  rw [splitPower.eq_def]
  split
  case h_1 base exponent isPow pair =>
    obtain ⟨baseInside, exponentInside, children⟩ :=
      tree_of_pair wellFormed inside pair
    have isTree := AtomTree.eq_pow_of_children (sameTag.trans isPow) children
    split_ifs with isNum
    · rw [isTree, tree_of_num wellFormed exponentInside isNum]
      exact ⟨baseInside, rfl⟩
    · refine ⟨inside, AtomTree.splitPower_eq_self ?_⟩
      rintro other value same
      rw [isTree, AtomTree.pow.injEq] at same
      rw [← tag_tree wellFormed exponentInside, same.2] at isNum
      exact isNum rfl
  case h_2 notPair =>
    refine ⟨inside, AtomTree.splitPower_eq_self ?_⟩
    rintro other value same
    obtain ⟨slot, next, pair⟩ :=
      exists_pair wellFormed inside (congrArg AtomTree.children same)
    exact notPair slot next (sameTag ▸ congrArg AtomTree.tag same) pair

/-- `normalize_add` follows the collection of terms. -/
theorem sumSlots_refines : sumSlots.Refines AtomTree.sums where
  totals := rfl
  split := fun invariant inside => splitCoefficient_refines invariant inside
  rebuild := by
    intro store key amount invariant inside
    have number := num_built invariant amount
    have operandsInside :
        ∀ operand ∈ [(store.num amount).1, key],
          operand < (store.num amount).2.nodes.length := by
      intro operand member
      simp only [List.mem_cons, List.not_mem_nil, or_false] at member
      rcases member with rfl | rfl
      · exact number.inside
      · exact number.growth.inside inside
    have product := mul_built number.invariant operandsInside
    rw [List.map_cons, List.map_singleton, number.tree_eq,
      number.tree_old invariant inside] at product
    exact product.trans number.growth
  build := fun invariant inside => add_built invariant inside

/-- `normalize_mul` follows the collection of factors. -/
theorem productSlots_refines : productSlots.Refines AtomTree.products where
  totals := rfl
  split := fun invariant inside => splitPower_refines invariant inside
  rebuild := by
    intro store key amount invariant inside
    exact (built_self invariant inside).pow (num_built invariant amount)
  build := fun invariant inside => mul_built invariant inside

/-- Slots of an arena that are normalized as their trees are. -/
def FollowsTrees
    (normalizeChild : ChildNormalizer)
    (bound : Nat) : Prop :=
  ∀ {store : AtomStore} {child : Nat},
    store.Invariant →
    child < store.nodes.length →
    child < bound →
    Built store (normalizeChild store child) (store.tree child).normalize

/-- Entries of slots, as entries of trees. -/
def entryTrees (store : AtomStore) (entries : List (Nat × ℚ)) :
    AtomTree.Entries :=
  entries.map (Prod.map store.tree id)

/-- What the loop delivers: the outcome of the loop over trees. -/
structure CollectedAs
    (store : AtomStore)
    (result : Except ℚ (List (Nat × ℚ) × ℚ) × AtomStore)
    (outcome : Except ℚ (AtomTree.Entries × ℚ)) : Prop where
  invariant : result.2.Invariant
  growth : Extends store result.2
  inside :
    ∀ {entries : List (Nat × ℚ)} {constant : ℚ},
      result.1 = .ok (entries, constant) →
      ∀ entry ∈ entries, entry.1 < result.2.nodes.length
  outcome_eq :
    result.1.map (Prod.map result.2.entryTrees id) = outcome

/-- Entries keep their trees when the arena grows. -/
theorem entryTrees_growth
    {older newer : AtomStore}
    (growth : Extends older newer)
    (olderInvariant : older.Invariant)
    (newerInvariant : newer.Invariant)
    {entries : List (Nat × ℚ)}
    (inside : ∀ entry ∈ entries, entry.1 < older.nodes.length) :
    newer.entryTrees entries = older.entryTrees entries := by
  apply List.map_congr_left
  intro entry member
  have sameTree :=
    growth.tree olderInvariant.wellFormed newerInvariant.wellFormed
      (inside entry member)
  rw [Prod.map, sameTree]
  rfl

/-- A loop in a later arena continues one in an earlier arena. -/
theorem CollectedAs.trans
    {store middle : AtomStore}
    {result : Except ℚ (List (Nat × ℚ) × ℚ) × AtomStore}
    {outcome : Except ℚ (AtomTree.Entries × ℚ)}
    (growth : Extends store middle)
    (collected : CollectedAs middle result outcome) :
    CollectedAs store result outcome :=
  ⟨collected.invariant, growth.trans collected.growth, collected.inside,
    collected.outcome_eq⟩

omit [StringHash] in
/-- Accumulating under slots accumulates under their trees. -/
theorem entryTrees_accumulate
    {store : AtomStore}
    (wellFormed : store.WellFormed)
    {key : Nat}
    (keyInside : key < store.nodes.length)
    (amount : ℚ)
    {entries : List (Nat × ℚ)}
    (entriesInside : ∀ entry ∈ entries, entry.1 < store.nodes.length) :
    store.entryTrees
        (OrderedMap.accumulate store.compareSlots key amount entries) =
      OrderedMap.accumulate Ord.compare (store.tree key) amount
        (store.entryTrees entries) :=
  OrderedMap.map_accumulate fun entry member =>
    compareSlots_eq wellFormed keyInside (entriesInside entry member)

omit [StringHash] in
/-- Accumulating under a slot enters no slot from elsewhere. -/
theorem accumulate_inside
    {store : AtomStore}
    {key : Nat}
    (keyInside : key < store.nodes.length)
    (amount : ℚ)
    {entries : List (Nat × ℚ)}
    (entriesInside : ∀ entry ∈ entries, entry.1 < store.nodes.length) :
    ∀ entry ∈ OrderedMap.accumulate store.compareSlots key amount entries,
      entry.1 < store.nodes.length := by
  intro entry member
  rcases OrderedMap.mem_keys_accumulate (List.mem_map_of_mem member) with
    same | old
  · rw [same]
    exact keyInside
  · obtain ⟨older, olderMember, same⟩ := List.mem_map.mp old
    rw [← same]
    exact entriesInside older olderMember

/-- The loop over children follows the loop over their normalized trees. -/
theorem SlotCollector.Refines.collect
    {slots : SlotCollector}
    {trees : AtomTree.Collector}
    (refines : slots.Refines trees)
    {normalizeChild : ChildNormalizer}
    {bound : Nat}
    (follows : FollowsTrees normalizeChild bound)
    {store : AtomStore}
    (invariant : store.Invariant)
    {children : List Nat}
    (childInside : ∀ child ∈ children, child < store.nodes.length)
    (childBound : ∀ child ∈ children, child < bound)
    {entries : List (Nat × ℚ)}
    (entriesInside : ∀ entry ∈ entries, entry.1 < store.nodes.length)
    (constant : ℚ) :
    CollectedAs store
      (slots.collect normalizeChild store children entries constant)
      (trees.collect (children.map fun child => (store.tree child).normalize)
        (store.entryTrees entries) constant) := by
  induction children generalizing store entries constant with
  | nil =>
      refine ⟨invariant, Extends.refl store, ?_, rfl⟩
      intro others other same
      cases same
      exact entriesInside
  | cons child rest inductionHypothesis =>
      have operand :=
        follows invariant (childInside child (by simp)) (childBound child (by simp))
      simp only [SlotCollector.collect, List.map_cons, AtomTree.Collector.collect]
      generalize normalizeChild store child = result at operand ⊢
      obtain ⟨slot, grown⟩ := result
      obtain ⟨grownInvariant, growth, slotInside, slotTree⟩ := operand
      simp only at grownInvariant growth slotInside slotTree ⊢
      have restInside : ∀ other ∈ rest, other < grown.nodes.length :=
        fun other member => growth.inside (childInside other (by simp [member]))
      have restBound : ∀ other ∈ rest, other < bound :=
        fun other member => childBound other (by simp [member])
      have sameRest :
          rest.map (fun other => (store.tree other).normalize) =
            rest.map fun other => (grown.tree other).normalize :=
        List.map_congr_left fun other member => by
          rw [growth.tree invariant.wellFormed grownInvariant.wellFormed
            (childInside other (by simp [member]))]
      have sameEntries :=
        entryTrees_growth growth invariant grownInvariant entriesInside
      have grownEntries : ∀ entry ∈ entries, entry.1 < grown.nodes.length :=
        fun entry member => growth.inside (entriesInside entry member)
      have number := numValue?_tree grownInvariant.wellFormed slotInside
      rw [slotTree] at number
      rw [number, sameRest, ← sameEntries, ← refines.totals]
      by_cases isNum : grown.tag slot = .num
      · simp only [if_pos isNum]
        split_ifs with decides
        · exact ⟨grownInvariant, growth, nofun, rfl⟩
        · exact (inductionHypothesis grownInvariant restInside restBound
            grownEntries _).trans growth
      · simp only [if_neg isNum]
        obtain ⟨keyInside, splitTree⟩ :=
          refines.split grownInvariant slotInside
        rw [slotTree] at splitTree
        rw [splitTree, ← entryTrees_accumulate grownInvariant.wellFormed
          keyInside _ grownEntries]
        exact (inductionHypothesis grownInvariant restInside restBound
          (accumulate_inside keyInside _ grownEntries) constant).trans growth

/-- The operands of entries follow the operands of their trees. -/
theorem SlotCollector.Refines.rebuilt
    {slots : SlotCollector}
    {trees : AtomTree.Collector}
    (refines : slots.Refines trees)
    {store : AtomStore}
    (invariant : store.Invariant)
    {entries : List (Nat × ℚ)}
    (entriesInside : ∀ entry ∈ entries, entry.1 < store.nodes.length) :
    BuiltAll store (slots.rebuilt store entries)
      ((store.entryTrees entries).flatMap trees.rebuilt) := by
  induction entries generalizing store with
  | nil =>
      exact builtAll_nil invariant
  | cons entry rest inductionHypothesis =>
      obtain ⟨key, amount⟩ := entry
      have keyInside : key < store.nodes.length :=
        entriesInside (key, amount) (by simp)
      have restInside : ∀ other ∈ rest, other.1 < store.nodes.length :=
        fun other member => entriesInside other (by simp [member])
      have first :
          (store.entryTrees ((key, amount) :: rest)).flatMap trees.rebuilt =
            trees.rebuilt (store.tree key, amount) ++
              (store.entryTrees rest).flatMap trees.rebuilt :=
        rfl
      rw [first, AtomTree.Collector.rebuilt, SlotCollector.rebuilt]
      split_ifs with isZero isUnit
      · exact inductionHypothesis invariant restInside
      · exact (built_self invariant keyInside).cons
          (inductionHypothesis invariant restInside)
      · have operand := refines.rebuild amount invariant keyInside
        have later :=
          inductionHypothesis operand.invariant
            fun other member => operand.growth.inside (restInside other member)
        rw [entryTrees_growth operand.growth invariant operand.invariant
          restInside] at later
        exact operand.cons later

/-- The operands after collection follow those of the trees. -/
theorem SlotCollector.Refines.collected
    {slots : SlotCollector}
    {trees : AtomTree.Collector}
    (refines : slots.Refines trees)
    {store : AtomStore}
    (invariant : store.Invariant)
    {entries : List (Nat × ℚ)}
    (entriesInside : ∀ entry ∈ entries, entry.1 < store.nodes.length)
    (constant : ℚ) :
    BuiltAll store (slots.collected store entries constant)
      (trees.collected (store.entryTrees entries) constant) := by
  have operands := refines.rebuilt invariant entriesInside
  have noOperands :
      (slots.rebuilt store entries).1 = [] ↔
        (store.entryTrees entries).flatMap trees.rebuilt = [] := by
    rw [← operands.trees_eq, List.map_eq_nil_iff]
  simp only [SlotCollector.collected, AtomTree.Collector.collected,
    refines.totals, noOperands]
  split_ifs
  · have number := num_built operands.invariant constant
    refine ⟨number.invariant, operands.growth.trans number.growth, ?_, ?_⟩
    · intro slot member
      rcases List.mem_append.mp member with old | new
      · exact number.growth.inside (operands.inside slot old)
      · rw [List.mem_singleton.mp new]
        exact number.inside
    · rw [List.map_append, List.map_singleton, number.tree_eq,
        number.growth.map_tree operands.invariant number.invariant
          operands.inside,
        operands.trees_eq]
  · exact operands

/-- The whole node follows the collection of its normalized children's trees. -/
theorem SlotCollector.Refines.finish
    {slots : SlotCollector}
    {trees : AtomTree.Collector}
    (refines : slots.Refines trees)
    {normalizeChild : ChildNormalizer}
    {bound : Nat}
    (follows : FollowsTrees normalizeChild bound)
    {store : AtomStore}
    (invariant : store.Invariant)
    {children : List Nat}
    (childInside : ∀ child ∈ children, child < store.nodes.length)
    (childBound : ∀ child ∈ children, child < bound) :
    Built store (slots.finish normalizeChild store children)
      (trees.finish
        (children.map fun child => (store.tree child).normalize)) := by
  have noEntries : ∀ entry ∈ ([] : List (Nat × ℚ)),
      entry.1 < store.nodes.length := nofun
  have loop :=
    refines.collect follows invariant childInside childBound noEntries
      slots.neutral
  rw [SlotCollector.finish, AtomTree.Collector.finish, ← refines.totals]
  generalize slots.collect normalizeChild store children [] slots.neutral =
    result at loop ⊢
  obtain ⟨outcome, grown⟩ := result
  obtain ⟨grownInvariant, growth, inside, outcome_eq⟩ := loop
  simp only at grownInvariant growth inside outcome_eq
  have emptyTrees : store.entryTrees [] = [] := rfl
  rw [emptyTrees] at outcome_eq
  rw [← outcome_eq]
  cases outcome with
  | error value =>
      exact (num_built grownInvariant value).trans growth
  | ok collection =>
      obtain ⟨entries, constant⟩ := collection
      have operands :=
        refines.collected grownInvariant (inside rfl) constant
      simp only [Except.map, Prod.map, id]
      rw [← operands.trees_eq]
      generalize slots.collected grown entries constant = final at operands ⊢
      obtain ⟨slotList, finalStore⟩ := final
      obtain ⟨finalInvariant, finalGrowth, finalInside, -⟩ := operands
      simp only at finalInvariant finalGrowth finalInside ⊢
      match slotList, finalInside with
      | [], finalInside =>
          exact (refines.build finalInvariant finalInside).trans
            (growth.trans finalGrowth)
      | [only], finalInside =>
          exact (built_self finalInvariant (finalInside only (by simp))).trans
            (growth.trans finalGrowth)
      | first :: second :: rest, finalInside =>
          exact (refines.build finalInvariant finalInside).trans
            (growth.trans finalGrowth)

/-- `normalize_pow` follows the folding of trees. -/
theorem normalizePow_built
    {normalizeChild : ChildNormalizer}
    {bound : Nat}
    (follows : FollowsTrees normalizeChild bound)
    {store : AtomStore}
    (invariant : store.Invariant)
    {base exponent : Nat}
    (inside : base < store.nodes.length ∧ exponent < store.nodes.length)
    (inBound : base < bound ∧ exponent < bound) :
    Built store (normalizePow normalizeChild store [base, exponent])
      (AtomTree.normalizePow (store.tree base).normalize
        (store.tree exponent).normalize) := by
  simp only [normalizePow, List.getD_cons_zero, List.getD_cons_succ]
  have first := follows invariant inside.1 inBound.1
  have exponentInside := first.growth.inside inside.2
  have exponentTree := first.tree_old invariant inside.2
  generalize normalizeChild store base = newBase at first exponentInside exponentTree ⊢
  have second := follows first.invariant exponentInside inBound.2
  rw [exponentTree] at second
  have baseInside := second.growth.inside first.inside
  have baseTree := second.tree_old first.invariant first.inside
  rw [first.tree_eq] at baseTree
  generalize normalizeChild newBase.2 exponent = newExponent
    at second baseInside baseTree ⊢
  have growth := first.growth.trans second.growth
  have number := numValue?_tree second.invariant.wellFormed second.inside
  rw [second.tree_eq] at number
  have power := pow_built second.invariant baseInside second.inside
  rw [baseTree, second.tree_eq] at power
  rw [AtomTree.normalizePow, number]
  by_cases isNum : newExponent.2.tag newExponent.1 = .num
  · simp only [if_pos isNum]
    split_ifs
    · exact (num_built second.invariant 1).trans growth
    · rw [← baseTree]
      exact (built_self second.invariant baseInside).trans growth
    · exact power.trans growth
  · simp only [if_neg isNum]
    exact power.trans growth

/-- The arguments follow the normalized trees. -/
theorem normalizeArguments_built
    {normalizeChild : ChildNormalizer}
    {bound : Nat}
    (follows : FollowsTrees normalizeChild bound)
    {store : AtomStore}
    (invariant : store.Invariant)
    {children : List Nat}
    (inside : ∀ child ∈ children, child < store.nodes.length)
    (inBound : ∀ child ∈ children, child < bound) :
    BuiltAll store (normalizeArguments normalizeChild store children)
      (children.map fun child => (store.tree child).normalize) := by
  induction children generalizing store with
  | nil =>
      exact builtAll_nil invariant
  | cons child rest inductionHypothesis =>
      have argument :=
        follows invariant (inside child (by simp)) (inBound child (by simp))
      have later :=
        inductionHypothesis argument.invariant
          (fun other member =>
            argument.growth.inside (inside other (by simp [member])))
          (fun other member => inBound other (by simp [member]))
      have sameRest :
          (rest.map fun other =>
              ((normalizeChild store child).2.tree other).normalize) =
            rest.map fun other => (store.tree other).normalize :=
        List.map_congr_left fun other member => by
          rw [argument.tree_old invariant (inside other (by simp [member]))]
      rw [sameRest] at later
      exact argument.cons later

/-- With fuel for its depth, `normalize` delivers the normalized tree. -/
theorem normalizeFuel_built (fuel : Nat) :
    FollowsTrees (normalizeFuel fuel) fuel := by
  induction fuel with
  | zero =>
      intro store index _ _ isZero
      exact absurd isZero (Nat.not_lt_zero index)
  | succ fuel inductionHypothesis =>
      intro store index invariant inside enough
      have wellFormed := invariant.wellFormed
      have upTo : index ≤ fuel := Nat.le_of_lt_succ enough
      have childInside : ∀ child ∈ store.children index, child < store.nodes.length :=
        fun child member => child_inside wellFormed inside member
      have childBound : ∀ child ∈ store.children index, child < fuel :=
        fun child member => (child_lt wellFormed inside member).trans_le upTo
      rw [normalizeFuel, tree_eq_byTag wellFormed inside]
      cases kind : store.tag index with
      | num =>
          exact num_built invariant _
      | var =>
          exact var_built invariant _
      | add =>
          simp only [AtomTree.normalize, AtomTree.normalizeAll_eq_map,
            List.map_map]
          exact sumSlots_refines.finish inductionHypothesis invariant
            childInside childBound
      | mul =>
          simp only [AtomTree.normalize, AtomTree.normalizeAll_eq_map,
            List.map_map]
          exact productSlots_refines.finish inductionHypothesis invariant
            childInside childBound
      | pow =>
          obtain ⟨base, exponent, pair, baseBelow, exponentBelow⟩ :=
            children_of_pow wellFormed inside kind
          simp only [pair, List.map_cons, List.map_nil, List.getD_cons_zero,
            List.getD_cons_succ, AtomTree.normalize]
          exact normalizePow_built inductionHypothesis invariant
            ⟨baseBelow.trans inside, exponentBelow.trans inside⟩
            ⟨baseBelow.trans_le upTo, exponentBelow.trans_le upTo⟩
      | func =>
          simp only [AtomTree.normalize, AtomTree.normalizeAll_eq_map,
            List.map_map]
          have arguments :=
            normalizeArguments_built inductionHypothesis invariant
              childInside childBound
          exact arguments.func (store.symbolOf index)

/-- `normalize` delivers a slot of the normalized tree. -/
theorem normalize_built
    {store : AtomStore}
    (invariant : store.Invariant)
    {index : Nat}
    (inside : index < store.nodes.length) :
    Built store (store.normalize index) (store.tree index).normalize :=
  normalizeFuel_built (index + 1) invariant inside (Nat.lt_succ_self index)

end Normalize

end AtomStore

end AtomCore
