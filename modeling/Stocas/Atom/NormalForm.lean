import Mathlib.Algebra.BigOperators.Group.List.Basic
import Mathlib.Algebra.Order.Group.Nat
import Mathlib.Tactic.Linarith
import Stocas.Atom.Normalize

namespace AtomCore

open SymbolTable (Symbol)

namespace AtomTree

/-!
# Normal forms

`Normal` says, without mentioning normalization, which canonical trees are the
results that `normalize` leaves alone.  The argument is a weight that
normalization decreases whenever it changes a tree: collecting like operands
never costs more than keeping them apart, and merging two of them costs less.
-/

/-- The numbers among operands. -/
def numbers (operands : List AtomTree) : List ℚ :=
  operands.filterMap numValue?

/-- The operands that are not numbers. -/
def symbolic (operands : List AtomTree) : List AtomTree :=
  operands.filter fun operand => operand.numValue? = none

/-- Symbolic operands that collection would neither merge nor shorten. -/
structure Collector.Distinct
    (collector : Collector)
    (operands : List AtomTree) : Prop where
  keys :
    ((symbolic operands).map fun operand =>
      (collector.split operand).1).Nodup
  unit :
    ∀ operand ∈ symbolic operands,
      (collector.split operand).2 = 1 →
      (collector.split operand).1 = operand

/-- Operands that are already collected. -/
structure Collector.Separate
    (collector : Collector)
    (operands : List AtomTree) : Prop where
  several : 2 ≤ operands.length
  distinct : collector.Distinct operands
  amounts :
    ∀ operand ∈ symbolic operands,
      (collector.split operand).2 ≠ 0
  oneNumber : (numbers operands).length ≤ 1
  number :
    ∀ value ∈ numbers operands,
      value ≠ collector.neutral ∧ collector.absorbing ≠ some value

/-- Trees that normalization has nothing to do with. -/
inductive Normal : AtomTree → Prop where
  | num (value : ℚ) :
      Normal (.num value)
  | var (symbol : Symbol) :
      Normal (.var symbol)
  | add
      {terms : List AtomTree} :
      (∀ term ∈ terms, Normal term) →
      sums.Separate terms →
      Normal (.add terms)
  | mul
      {factors : List AtomTree} :
      (∀ factor ∈ factors, Normal factor) →
      products.Separate factors →
      Normal (.mul factors)
  | pow
      {base exponent : AtomTree} :
      Normal base →
      Normal exponent →
      exponent ≠ .num 0 →
      exponent ≠ .num 1 →
      Normal (.pow base exponent)
  | func
      (head : Symbol)
      {arguments : List AtomTree} :
      (∀ argument ∈ arguments, Normal argument) →
      Normal (.func head arguments)

mutual

/-- The weight of a tree; numbers are lightest and everything else weighs 4. -/
def weight : AtomTree → Nat
  | .num _ => 1
  | .var _ => 4
  | .add terms => 4 + weightAll terms
  | .mul factors => max 4 (2 + weightAll factors)
  | .pow base exponent => 2 + weight base + weight exponent
  | .func _ arguments => 4 + weightAll arguments

/-- The total weight of some trees. -/
def weightAll : List AtomTree → Nat
  | [] => 0
  | tree :: rest => weight tree + weightAll rest

end

@[simp] theorem weightAll_nil : weightAll [] = 0 := rfl

@[simp] theorem weightAll_cons
    (tree : AtomTree)
    (rest : List AtomTree) :
    weightAll (tree :: rest) = weight tree + weightAll rest :=
  rfl

@[simp] theorem weightAll_append
    (trees others : List AtomTree) :
    weightAll (trees ++ others) = weightAll trees + weightAll others := by
  induction trees with
  | nil =>
      simp
  | cons tree rest inductionHypothesis =>
      simp [inductionHypothesis, Nat.add_assoc]

/-- Reordering trees keeps their total weight. -/
theorem weightAll_perm
    {trees others : List AtomTree}
    (same : trees.Perm others) :
    weightAll trees = weightAll others := by
  induction same with
  | nil =>
      rfl
  | cons tree _ inductionHypothesis =>
      simp [inductionHypothesis]
  | swap tree other rest =>
      simp [Nat.add_left_comm]
  | trans _ _ first second =>
      exact first.trans second

/-- Every tree weighs something. -/
theorem weight_pos (tree : AtomTree) : 1 ≤ weight tree := by
  cases tree <;> simp only [weight] <;> omega

/-- Everything but a number weighs at least 4. -/
theorem four_le_weight
    {tree : AtomTree}
    (isSymbolic : tree.numValue? = none) :
    4 ≤ weight tree := by
  cases tree with
  | num value =>
      cases isSymbolic
  | var | add | func =>
      simp only [weight]
      omega
  | mul factors =>
      exact le_max_left _ _
  | pow base exponent =>
      have baseWeight := weight_pos base
      have exponentWeight := weight_pos exponent
      simp only [weight]
      omega

/-- There are no more trees than their total weight. -/
theorem length_le_weightAll (trees : List AtomTree) :
    trees.length ≤ weightAll trees := by
  induction trees with
  | nil =>
      exact Nat.le_refl _
  | cons tree rest inductionHypothesis =>
      have headWeight := weight_pos tree
      simp only [List.length_cons, weightAll_cons]
      omega

/-- Splicing operands does not make them heavier. -/
theorem weightAll_flattenOperands
    (flattenTag : AtomTag)
    (operands : List AtomTree) :
    weightAll (flattenOperands flattenTag operands) ≤ weightAll operands := by
  induction operands with
  | nil =>
      exact Nat.le_refl _
  | cons operand rest inductionHypothesis =>
      have headWeight :
          weightAll (operandsOf flattenTag operand) ≤ weight operand := by
        rw [operandsOf]
        split_ifs
        · cases operand <;> simp only [children, weight, weightAll_nil,
            weightAll_cons] <;> omega
        · simp
      simp only [flattenOperands, List.flatMap_cons, weightAll_append,
        weightAll_cons] at inductionHypothesis ⊢
      exact Nat.add_le_add headWeight inductionHypothesis

/-- The children of a built node are no heavier than its operands. -/
theorem weightAll_variadicChildren
    (tag : AtomTag)
    (operands : List AtomTree) :
    weightAll (variadicChildren tag operands) ≤ weightAll operands := by
  rw [weightAll_perm (perm_variadicChildren tag operands)]
  exact weightAll_flattenOperands tag operands

/-- The facts about a collector that the weight argument uses. -/
structure Collector.Lawful
    (collector : Collector)
    (nodeWeight : Nat → Nat) : Prop where
  /-- Splitting a symbolic operand loses nothing. -/
  split :
    ∀ {operand : AtomTree},
      operand.Canonical →
      operand.numValue? = none →
      collector.split operand = (operand, 1) ∨
        collector.rebuild (collector.split operand).1
            (collector.split operand).2 = operand ∧
          weight operand = weight (collector.split operand).1 + 3
  key_canonical :
    ∀ {operand : AtomTree},
      operand.Canonical →
      (collector.split operand).1.Canonical
  rebuild_canonical :
    ∀ {key : AtomTree} (amount : ℚ),
      key.Canonical →
      (collector.rebuild key amount).Canonical
  build_canonical :
    ∀ {operands : List AtomTree},
      (∀ operand ∈ operands, operand.Canonical) →
      (collector.build operands).Canonical
  build_perm :
    ∀ {operands others : List AtomTree},
      operands.Perm others →
      collector.build operands = collector.build others
  combine_neutral :
    ∀ value, collector.combine collector.neutral value = value
  weight_rebuild :
    ∀ (key : AtomTree) (amount : ℚ),
      weight (collector.rebuild key amount) ≤ weight key + 3
  weight_build :
    ∀ operands : List AtomTree,
      weight (collector.build operands) ≤ nodeWeight (weightAll operands)
  nodeWeight_gt : ∀ total, total < nodeWeight total
  four_le_nodeWeight : ∀ total, 4 ≤ nodeWeight total
  nodeWeight_lt :
    ∀ {lighter heavier : Nat},
      lighter < heavier →
      3 ≤ heavier →
      nodeWeight lighter < nodeWeight heavier

/-- The term of a canonical operand is canonical. -/
private theorem canonical_splitCoefficient
    {operand : AtomTree}
    (canonical : operand.Canonical) :
    (splitCoefficient operand).1.Canonical := by
  rw [splitCoefficient.eq_def]
  split
  · exact canonical.child (by simp [children])
  · exact canonical

theorem lawful_sums : sums.Lawful fun total => 4 + total where
  split := by
    intro operand canonical isSymbolic
    simp only [sums]
    rw [splitCoefficient.eq_def]
    split
    case h_1 coefficient rest =>
      right
      refine ⟨mkMul_children canonical, ?_⟩
      have restWeight := weight_pos rest
      simp only [weight, weightAll_cons, weightAll_nil]
      omega
    case h_2 =>
      exact Or.inl rfl
  key_canonical := canonical_splitCoefficient
  rebuild_canonical := by
    intro key amount canonical
    apply canonical_mkMul
    simp [canonical, Canonical.num]
  build_canonical := canonical_mkAdd
  build_perm := by
    intro operands others same
    exact congrArg AtomTree.add
      (variadicChildren_congr (same.flatMap_right _))
  combine_neutral := zero_add
  weight_rebuild := by
    intro key amount
    have children := weightAll_variadicChildren .mul [.num amount, key]
    have keyWeight := weight_pos key
    simp only [weightAll_cons, weightAll_nil, weight] at children
    simp only [sums, mkMul, weight]
    omega
  weight_build := by
    intro operands
    exact Nat.add_le_add_left (weightAll_variadicChildren .add operands) 4
  nodeWeight_gt := by
    intro total
    omega
  four_le_nodeWeight := Nat.le_add_right 4
  nodeWeight_lt := by
    intro lighter heavier below _
    exact Nat.add_lt_add_left below 4

theorem lawful_products : products.Lawful fun total => max 4 (2 + total) where
  split := by
    intro operand canonical isSymbolic
    simp only [products]
    rw [splitPower.eq_def]
    split
    case h_1 base exponent =>
      right
      refine ⟨rfl, ?_⟩
      simp only [weight]
      omega
    case h_2 =>
      exact Or.inl rfl
  key_canonical := by
    intro operand canonical
    simp only [products]
    rw [splitPower.eq_def]
    split
    · exact canonical.child (by simp [children])
    · exact canonical
  rebuild_canonical := fun amount canonical => .pow canonical (.num amount)
  build_canonical := canonical_mkMul
  build_perm := by
    intro operands others same
    exact congrArg AtomTree.mul
      (variadicChildren_congr (same.flatMap_right _))
  combine_neutral := one_mul
  weight_rebuild := by
    intro key amount
    simp only [products, weight]
    omega
  weight_build := by
    intro operands
    have children := weightAll_variadicChildren .mul operands
    simp only [products, mkMul, weight]
    omega
  nodeWeight_gt := by
    intro total
    omega
  four_le_nodeWeight := fun total => le_max_left _ _
  nodeWeight_lt := by
    intro lighter heavier below enough
    omega

section Collecting

variable {collector : Collector}

/-- What an entry may weigh once it is rebuilt. -/
def entryWeight (entry : AtomTree × ℚ) : Nat :=
  if entry.2 = 1 then weight entry.1 else weight entry.1 + 3

/-- What all entries may weigh together. -/
def entriesWeight (entries : Entries) : Nat :=
  (entries.map entryWeight).sum

theorem entriesWeight_perm
    {entries others : Entries}
    (same : entries.Perm others) :
    entriesWeight entries = entriesWeight others :=
  (same.map entryWeight).sum_eq

@[simp] theorem entriesWeight_cons
    (entry : AtomTree × ℚ)
    (rest : Entries) :
    entriesWeight (entry :: rest) = entryWeight entry + entriesWeight rest :=
  rfl

theorem entryWeight_le (entry : AtomTree × ℚ) :
    entryWeight entry ≤ weight entry.1 + 3 := by
  rw [entryWeight]
  split_ifs <;> omega

theorem le_entryWeight (entry : AtomTree × ℚ) :
    weight entry.1 ≤ entryWeight entry := by
  rw [entryWeight]
  split_ifs <;> omega

@[simp] theorem symbolic_append
    (operands others : List AtomTree) :
    symbolic (operands ++ others) = symbolic operands ++ symbolic others :=
  List.filter_append _ _

@[simp] theorem numbers_append
    (operands others : List AtomTree) :
    numbers (operands ++ others) = numbers operands ++ numbers others :=
  List.filterMap_append

theorem symbolic_singleton
    {operand : AtomTree}
    (isSymbolic : operand.numValue? = none) :
    symbolic [operand] = [operand] := by
  simp [symbolic, isSymbolic]

/-- Splitting a symbolic operand does not cost weight. -/
private theorem entryWeight_split
    {nodeWeight : Nat → Nat}
    (lawful : collector.Lawful nodeWeight)
    {operand : AtomTree}
    (canonical : operand.Canonical)
    (isSymbolic : operand.numValue? = none) :
    entryWeight (collector.split operand) ≤ weight operand := by
  rcases lawful.split canonical isSymbolic with same | ⟨-, heavier⟩
  · rw [same]
    exact Nat.le_refl _
  · rw [heavier]
    exact entryWeight_le _

/-- The loop state after some operands: their entries and their number. -/
structure Collector.Collected
    (collector : Collector)
    (operands : List AtomTree)
    (entries : Entries)
    (constant : ℚ) : Prop where
  sorted : OrderedMap.Sorted entries
  bounded : entriesWeight entries ≤ weightAll (symbolic operands)
  kept :
    collector.Distinct operands →
    entries.Perm ((symbolic operands).map collector.split)
  lighter :
    ¬ collector.Distinct operands →
    entriesWeight entries < weightAll (symbolic operands)
  constant_eq :
    constant = (numbers operands).foldl collector.combine collector.neutral
  noAbsorbing :
    ∀ value ∈ numbers operands,
      collector.absorbing ≠ some value

/-- Operands before the last one are distinct when all of them are. -/
private theorem Collector.Distinct.of_append
    {operands others : List AtomTree}
    (distinct : collector.Distinct (operands ++ others)) :
    collector.Distinct operands where
  keys := by
    have keys := distinct.keys
    rw [symbolic_append, List.map_append] at keys
    exact (List.nodup_append.mp keys).1
  unit := fun operand member =>
    distinct.unit operand (by simp [member])

/-- A number changes the constant only. -/
private theorem Collector.Collected.number
    {operands : List AtomTree}
    {entries : Entries}
    {constant value : ℚ}
    (before : collector.Collected operands entries constant)
    (ordinary : collector.absorbing ≠ some value) :
    collector.Collected (operands ++ [.num value]) entries
      (collector.combine constant value) := by
  have sameSymbolic :
      symbolic (operands ++ [.num value]) = symbolic operands := by
    simp [symbolic, numValue?]
  have sameDistinct :
      collector.Distinct (operands ++ [.num value]) ↔
        collector.Distinct operands := by
    constructor
    · exact Collector.Distinct.of_append
    · rintro ⟨keys, unit⟩
      exact ⟨by rwa [sameSymbolic], by rwa [sameSymbolic]⟩
  have moreNumbers :
      numbers (operands ++ [.num value]) = numbers operands ++ [value] := by
    simp [numbers, numValue?]
  refine ⟨before.sorted, ?_, ?_, ?_, ?_, ?_⟩
  · rw [sameSymbolic]
    exact before.bounded
  · rw [sameDistinct, sameSymbolic]
    exact before.kept
  · rw [sameDistinct, sameSymbolic]
    exact before.lighter
  · rw [moreNumbers, List.foldl_append, ← before.constant_eq]
    rfl
  · rw [moreNumbers]
    intro other member
    rcases List.mem_append.mp member with old | new
    · exact before.noAbsorbing other old
    · rw [List.mem_singleton.mp new]
      exact ordinary

/-- A symbolic operand makes a new entry, or joins one and saves weight. -/
private theorem Collector.Collected.symbolic
    {nodeWeight : Nat → Nat}
    (lawful : collector.Lawful nodeWeight)
    {operands : List AtomTree}
    {entries : Entries}
    {constant : ℚ}
    (before : collector.Collected operands entries constant)
    {operand : AtomTree}
    (canonical : operand.Canonical)
    (isSymbolic : operand.numValue? = none) :
    collector.Collected (operands ++ [operand])
      (OrderedMap.accumulate Ord.compare (collector.split operand).1
        (collector.split operand).2 entries)
      constant := by
  have moreSymbolic :
      AtomTree.symbolic (operands ++ [operand]) =
        AtomTree.symbolic operands ++ [operand] := by
    rw [symbolic_append, symbolic_singleton isSymbolic]
  have sameNumbers : numbers (operands ++ [operand]) = numbers operands := by
    simp [numbers, isSymbolic]
  have operandWeight := four_le_weight isSymbolic
  have splitWeight := entryWeight_split lawful canonical isSymbolic
  have bounded := before.bounded
  have moreWeight :
      weightAll (AtomTree.symbolic (operands ++ [operand])) =
        weightAll (AtomTree.symbolic operands) + weight operand := by
    simp [moreSymbolic]
  generalize splitOperand : collector.split operand = entry at *
  obtain ⟨key, amount⟩ := entry
  have sorted := OrderedMap.sorted_accumulate before.sorted key amount
  have keysBefore :
      collector.Distinct operands →
      (entries.map Prod.fst).Perm
        ((AtomTree.symbolic operands).map fun operand =>
          (collector.split operand).1) := by
    intro distinct
    have keys := (before.kept distinct).map Prod.fst
    rwa [List.map_map] at keys
  have distinct_iff :
      collector.Distinct (operands ++ [operand]) ↔
        collector.Distinct operands ∧
          key ∉ (AtomTree.symbolic operands).map
            (fun operand => (collector.split operand).1) ∧
          (amount = 1 → key = operand) := by
    constructor
    · intro distinct
      refine ⟨distinct.of_append, ?_, ?_⟩
      · have keys := distinct.keys
        rw [moreSymbolic, List.map_append, List.map_singleton, splitOperand,
          ← List.concat_eq_append, List.nodup_concat] at keys
        exact keys.1
      · have unit := distinct.unit operand (by simp [moreSymbolic])
        rwa [splitOperand] at unit
    · rintro ⟨distinct, absent, unit⟩
      refine ⟨?_, ?_⟩
      · rw [moreSymbolic, List.map_append, List.map_singleton, splitOperand,
          ← List.concat_eq_append, List.nodup_concat]
        exact ⟨absent, distinct.keys⟩
      · intro other member
        rw [moreSymbolic] at member
        rcases List.mem_append.mp member with old | new
        · exact distinct.unit other old
        · rw [List.mem_singleton.mp new, splitOperand]
          exact unit
  have numberFacts :
      constant =
          (numbers (operands ++ [operand])).foldl
            collector.combine collector.neutral ∧
        ∀ value ∈ numbers (operands ++ [operand]),
          collector.absorbing ≠ some value := by
    rw [sameNumbers]
    exact ⟨before.constant_eq, before.noAbsorbing⟩
  rcases OrderedMap.accumulate_cases before.sorted key amount with
    ⟨absent, fresh⟩ | ⟨old, others, entriesBefore, entriesAfter⟩
  · -- A new entry: lighter than the operand when the operand wastes weight.
    have weightAfter := entriesWeight_perm fresh
    rw [entriesWeight_cons] at weightAfter
    refine ⟨sorted, ?_, ?_, ?_, numberFacts.1, numberFacts.2⟩
    · rw [weightAfter, moreWeight]
      omega
    · intro distinct
      have before := before.kept (distinct_iff.mp distinct).1
      rw [moreSymbolic, List.map_append, List.map_singleton, splitOperand]
      exact fresh.trans
        ((before.cons _).trans (List.perm_append_singleton _ _).symm)
    · intro notDistinct
      rw [weightAfter, moreWeight]
      by_cases distinct : collector.Distinct operands
      · have wasteful : ¬ (amount = 1 → key = operand) := by
          intro unit
          apply notDistinct
          refine distinct_iff.mpr ⟨distinct, ?_, unit⟩
          rwa [← (keysBefore distinct).mem_iff]
        obtain ⟨isUnit, differs⟩ := Classical.not_imp.mp wasteful
        have heavier : weight operand = weight key + 3 := by
          rcases lawful.split canonical isSymbolic with same | ⟨-, heavier⟩
          · rw [splitOperand] at same
            exact absurd (congrArg Prod.fst same) differs
          · rwa [splitOperand] at heavier
        have light : entryWeight (key, amount) = weight key := by
          simp [entryWeight, isUnit]
        omega
      · have lighter := before.lighter distinct
        omega
  · -- A merged entry: its key weighs less than one more operand.
    have weightBefore := entriesWeight_perm entriesBefore
    have weightAfter := entriesWeight_perm entriesAfter
    rw [entriesWeight_cons] at weightBefore weightAfter
    have keyWeight : weight key ≤ entryWeight (key, old) :=
      le_entryWeight (key, old)
    have merged : entryWeight (key, old + amount) ≤ weight key + 3 :=
      entryWeight_le (key, old + amount)
    refine ⟨sorted, ?_, ?_, ?_, numberFacts.1, numberFacts.2⟩
    · rw [weightAfter, moreWeight]
      omega
    · intro distinct
      obtain ⟨distinctBefore, absent, -⟩ := distinct_iff.mp distinct
      rw [← (keysBefore distinctBefore).mem_iff,
        (entriesBefore.map Prod.fst).mem_iff] at absent
      exact absurd (by simp) absent
    · intro _
      rw [weightAfter, moreWeight]
      omega

/-- The state before the first operand. -/
theorem Collector.collected_nil :
    collector.Collected [] [] collector.neutral where
  sorted := List.Pairwise.nil
  bounded := Nat.le_refl _
  kept := fun _ => List.Perm.rfl
  lighter := by
    intro notDistinct
    refine absurd ⟨?_, ?_⟩ notDistinct
    · exact List.nodup_nil
    · intro operand member
      cases member
  constant_eq := rfl
  noAbsorbing := by
    intro value member
    cases member

/-- The loop keeps its state in line with the operands it has seen. -/
theorem Collector.Collected.collect
    {nodeWeight : Nat → Nat}
    (lawful : collector.Lawful nodeWeight)
    {seen rest : List AtomTree}
    (canonical : ∀ operand ∈ rest, operand.Canonical)
    {entries entriesAfter : Entries}
    {constant constantAfter : ℚ}
    (before : collector.Collected seen entries constant)
    (collects :
      collector.collect rest entries constant =
        .ok (entriesAfter, constantAfter)) :
    collector.Collected (seen ++ rest) entriesAfter constantAfter := by
  induction rest generalizing seen entries constant with
  | nil =>
      cases collects
      rwa [List.append_nil]
  | cons operand rest inductionHypothesis =>
      have later : ∀ other ∈ rest, other.Canonical :=
        fun other member => canonical other (by simp [member])
      rw [List.append_cons]
      simp only [Collector.collect] at collects
      cases isNumber : operand.numValue? with
      | some value =>
          rw [isNumber] at collects
          simp only at collects
          split_ifs at collects with decides
          rw [eq_num_of_numValue? isNumber]
          exact inductionHypothesis later (before.number decides) collects
      | none =>
          rw [isNumber] at collects
          have step :=
            before.symbolic lawful (canonical operand (by simp)) isNumber
          exact inductionHypothesis later step collects

/-- Operands are their symbolic operands and their numbers. -/
theorem perm_symbolic_numbers (operands : List AtomTree) :
    (symbolic operands ++ (numbers operands).map AtomTree.num).Perm operands := by
  induction operands with
  | nil =>
      exact List.Perm.rfl
  | cons operand rest inductionHypothesis =>
      cases isNumber : operand.numValue? with
      | some value =>
          rw [eq_num_of_numValue? isNumber]
          have sameSymbolic : symbolic (.num value :: rest) = symbolic rest := by
            simp [symbolic, numValue?]
          have moreNumbers :
              numbers (.num value :: rest) = value :: numbers rest := by
            simp [numbers, numValue?]
          rw [sameSymbolic, moreNumbers, List.map_cons]
          exact List.perm_middle.trans (inductionHypothesis.cons _)
      | none =>
          have moreSymbolic :
              symbolic (operand :: rest) = operand :: symbolic rest := by
            simp [symbolic, isNumber]
          have sameNumbers : numbers (operand :: rest) = numbers rest := by
            simp [numbers, isNumber]
          rw [moreSymbolic, sameNumbers, List.cons_append]
          exact inductionHypothesis.cons _

/-- Numbers weigh 1 each. -/
theorem weightAll_eq
    (operands : List AtomTree) :
    weightAll operands =
      weightAll (symbolic operands) + (numbers operands).length := by
  rw [← weightAll_perm (perm_symbolic_numbers operands), weightAll_append]
  congr 1
  induction numbers operands with
  | nil =>
      rfl
  | cons value rest inductionHypothesis =>
      simp only [List.map_cons, weightAll_cons, inductionHypothesis, weight,
        List.length_cons]
      omega

theorem length_eq
    (operands : List AtomTree) :
    operands.length =
      (symbolic operands).length + (numbers operands).length := by
  rw [← (perm_symbolic_numbers operands).length_eq, List.length_append,
    List.length_map]

/-- A rebuilt entry weighs no more than the entry may. -/
private theorem weightAll_rebuilt
    {nodeWeight : Nat → Nat}
    (lawful : collector.Lawful nodeWeight)
    (entry : AtomTree × ℚ) :
    weightAll (collector.rebuilt entry) ≤ entryWeight entry := by
  rw [Collector.rebuilt, entryWeight]
  split_ifs with isZero isUnit
  · exact Nat.zero_le _
  · exact Nat.zero_le _
  · exact Nat.le_refl _
  · exact lawful.weight_rebuild entry.1 entry.2

/-- Rebuilt entries weigh no more than the entries may, less if one is dropped. -/
private theorem weightAll_flatMap_rebuilt
    {nodeWeight : Nat → Nat}
    (lawful : collector.Lawful nodeWeight)
    (entries : Entries) :
    weightAll (entries.flatMap collector.rebuilt) ≤ entriesWeight entries ∧
      ((∃ entry ∈ entries, entry.2 = 0) →
        weightAll (entries.flatMap collector.rebuilt) <
          entriesWeight entries) := by
  induction entries with
  | nil =>
      refine ⟨Nat.le_refl _, ?_⟩
      rintro ⟨entry, member, -⟩
      cases member
  | cons entry rest inductionHypothesis =>
      obtain ⟨atMost, dropped⟩ := inductionHypothesis
      have head := weightAll_rebuilt lawful entry
      rw [List.flatMap_cons, weightAll_append, entriesWeight_cons]
      refine ⟨Nat.add_le_add head atMost, ?_⟩
      rintro ⟨other, member, isZero⟩
      rcases List.mem_cons.mp member with rfl | member
      · have nothing : collector.rebuilt other = [] := by
          simp [Collector.rebuilt, isZero]
        have keyWeight := weight_pos other.1
        have entryWeight := le_entryWeight other
        rw [nothing, weightAll_nil]
        omega
      · have later := dropped ⟨other, member, isZero⟩
        omega

/-- Distinct operands that are not dropped come back as they were. -/
private theorem Collector.Collected.perm_rebuilt
    {nodeWeight : Nat → Nat}
    (lawful : collector.Lawful nodeWeight)
    {operands : List AtomTree}
    (canonical : ∀ operand ∈ operands, operand.Canonical)
    {entries : Entries}
    {constant : ℚ}
    (after : collector.Collected operands entries constant)
    (distinct : collector.Distinct operands)
    (amounts :
      ∀ operand ∈ AtomTree.symbolic operands,
        (collector.split operand).2 ≠ 0) :
    (entries.flatMap collector.rebuilt).Perm
      (AtomTree.symbolic operands) := by
  refine ((after.kept distinct).flatMap_right _).trans ?_
  rw [List.flatMap_map]
  have unchanged :
      ∀ operand ∈ AtomTree.symbolic operands,
        collector.rebuilt (collector.split operand) = [operand] := by
    intro operand member
    obtain ⟨operandMember, isSymbolic⟩ := List.mem_filter.mp member
    have nonzero := amounts operand member
    have unit := distinct.unit operand member
    rw [Collector.rebuilt, if_neg nonzero]
    split_ifs with isUnit
    · rw [unit isUnit]
    · rcases lawful.split (canonical operand operandMember)
        (by simpa using isSymbolic) with same | ⟨same, -⟩
      · exact absurd (congrArg Prod.snd same) isUnit
      · rw [same]
  rw [List.flatMap_congr unchanged, List.flatMap_singleton']

/-- Without an absorbing number the loop runs to its end. -/
theorem exists_collect
    {operands : List AtomTree}
    (ordinary :
      ∀ value ∈ numbers operands,
        collector.absorbing ≠ some value)
    (entries : Entries)
    (constant : ℚ) :
    ∃ entriesAfter constantAfter,
      collector.collect operands entries constant =
        .ok (entriesAfter, constantAfter) := by
  induction operands generalizing entries constant with
  | nil =>
      exact ⟨entries, constant, rfl⟩
  | cons operand rest inductionHypothesis =>
      have later :
          ∀ value ∈ numbers rest, collector.absorbing ≠ some value := by
        intro value member
        apply ordinary
        rw [← List.singleton_append, numbers_append]
        exact List.mem_append_right _ member
      simp only [Collector.collect]
      cases isNumber : operand.numValue? with
      | some value =>
          have isOrdinary : collector.absorbing ≠ some value :=
            ordinary value (by simp [numbers, isNumber])
          simp only [if_neg isOrdinary]
          exact inductionHypothesis later _ _
      | none =>
          exact inductionHypothesis later _ _

/-- Collection leaves at least one operand, a number if nothing else. -/
private theorem collected_ne_nil
    (collector : Collector)
    (entries : Entries)
    (constant : ℚ) :
    collector.collected entries constant ≠ [] := by
  simp only [Collector.collected]
  split_ifs with pushes
  · simp
  · exact (not_or.mp pushes).2

/-- What is left weighs no more than the entries may, or is a number. -/
private theorem weight_of_collected_singleton
    {nodeWeight : Nat → Nat}
    (lawful : collector.Lawful nodeWeight)
    {entries : Entries}
    {constant : ℚ}
    {only : AtomTree}
    (single : collector.collected entries constant = [only]) :
    weight only ≤ max 1 (entriesWeight entries) := by
  obtain ⟨atMost, -⟩ := weightAll_flatMap_rebuilt lawful entries
  simp only [Collector.collected] at single
  split_ifs at single with pushes
  · have isNumber : only = .num constant := by
      have last := congrArg List.getLast? single
      simpa using last.symm
    rw [isNumber, weight]
    exact le_max_left _ _
  · rw [single, weightAll_cons, weightAll_nil] at atMost
    exact le_max_of_le_right atMost

/-- Two or more operands are given to the builder. -/
theorem assemble_of_two_le
    {operands : List AtomTree}
    (several : 2 ≤ operands.length) :
    collector.assemble operands = collector.build operands := by
  match operands, several with
  | _ :: _ :: _, _ =>
      rfl

/-- Operands that are already collected are only handed to the builder. -/
theorem finish_of_separate
    {nodeWeight : Nat → Nat}
    (lawful : collector.Lawful nodeWeight)
    {operands : List AtomTree}
    (canonical : ∀ operand ∈ operands, operand.Canonical)
    (separate : collector.Separate operands) :
    collector.finish operands = collector.build operands := by
  have ordinary :
      ∀ value ∈ numbers operands, collector.absorbing ≠ some value :=
    fun value member => (separate.number value member).2
  obtain ⟨entries, constant, collects⟩ :=
    exists_collect ordinary [] collector.neutral
  have after :=
    Collector.collected_nil.collect lawful canonical collects
  rw [List.nil_append] at after
  have rebuilt :=
    after.perm_rebuilt lawful canonical separate.distinct separate.amounts
  have collectedPerm :
      (collector.collected entries constant).Perm operands := by
    have several := separate.several
    have lengths := length_eq operands
    have oneNumber := separate.oneNumber
    refine List.Perm.trans ?_ (perm_symbolic_numbers operands)
    have nonempty : entries.flatMap collector.rebuilt ≠ [] := by
      intro isEmpty
      rw [isEmpty] at rebuilt
      have none := rebuilt.length_eq
      rw [List.length_nil] at none
      omega
    rw [Collector.collected, after.constant_eq]
    cases theNumbers : numbers operands with
    | nil =>
        simp only [List.foldl_nil, ne_eq, not_true_eq_false, nonempty, or_self,
          if_false, List.map_nil, List.append_nil]
        exact rebuilt
    | cons value rest =>
        have single : rest = [] := by
          rw [theNumbers, List.length_cons] at oneNumber
          exact List.length_eq_zero_iff.mp (by omega)
        have matters := (separate.number value (by simp [theNumbers])).1
        subst single
        simp only [List.foldl_cons, List.foldl_nil, lawful.combine_neutral,
          ne_eq, matters, not_false_eq_true, true_or, if_true, List.map_cons,
          List.map_nil]
        exact rebuilt.append_right _
  have several : 2 ≤ (collector.collected entries constant).length := by
    rw [collectedPerm.length_eq]
    exact separate.several
  rw [Collector.finish, collects]
  simp only [assemble_of_two_le several]
  exact lawful.build_perm collectedPerm

/-- When no weight is lost the operands were distinct and none was dropped. -/
private theorem Collector.Collected.tight
    {nodeWeight : Nat → Nat}
    (lawful : collector.Lawful nodeWeight)
    {operands : List AtomTree}
    {entries : Entries}
    {constant : ℚ}
    (after : collector.Collected operands entries constant)
    (noLoss :
      weightAll (AtomTree.symbolic operands) ≤
        weightAll (entries.flatMap collector.rebuilt)) :
    collector.Distinct operands ∧
      ∀ operand ∈ AtomTree.symbolic operands,
        (collector.split operand).2 ≠ 0 := by
  obtain ⟨atMost, dropped⟩ := weightAll_flatMap_rebuilt lawful entries
  have distinct : collector.Distinct operands := by
    by_contra notDistinct
    have lighter := after.lighter notDistinct
    omega
  refine ⟨distinct, ?_⟩
  intro operand member isZero
  have entered : collector.split operand ∈ entries :=
    (after.kept distinct).mem_iff.mpr (List.mem_map_of_mem member)
  have lighter := dropped ⟨collector.split operand, entered, isZero⟩
  have bounded := after.bounded
  omega

/-- Several operands left after a loop that changed something are lighter. -/
private theorem weightAll_collected_lt
    {nodeWeight : Nat → Nat}
    (lawful : collector.Lawful nodeWeight)
    {operands : List AtomTree}
    (canonical : ∀ operand ∈ operands, operand.Canonical)
    {entries : Entries}
    {constant : ℚ}
    (after : collector.Collected operands entries constant)
    (several : 2 ≤ (collector.collected entries constant).length)
    (notSeparate : ¬ collector.Separate operands) :
    weightAll (collector.collected entries constant) < weightAll operands := by
  obtain ⟨atMost, -⟩ := weightAll_flatMap_rebuilt lawful entries
  have bounded := after.bounded
  have total := weightAll_eq operands
  have lengths := length_eq operands
  have nonempty : entries.flatMap collector.rebuilt ≠ [] := by
    intro isEmpty
    simp [Collector.collected, isEmpty] at several
  by_contra notLighter
  apply notSeparate
  by_cases idle : constant = collector.neutral
  · -- No number is pushed, so there was none.
    have same :
        collector.collected entries constant =
          entries.flatMap collector.rebuilt := by
      simp [Collector.collected, idle, nonempty]
    rw [same] at several notLighter
    obtain ⟨distinct, amounts⟩ := after.tight lawful (by omega)
    have lengthSame :=
      (after.perm_rebuilt lawful canonical distinct amounts).length_eq
    have noNumbers : numbers operands = [] :=
      List.length_eq_zero_iff.mp (by omega)
    refine ⟨by omega, distinct, amounts, by simp [noNumbers], ?_⟩
    simp [noNumbers]
  · -- A number is pushed, so there was exactly this one.
    have same :
        collector.collected entries constant =
          entries.flatMap collector.rebuilt ++ [.num constant] := by
      simp [Collector.collected, idle]
    rw [same] at several notLighter
    rw [weightAll_append] at notLighter
    have pushedWeight : weightAll [.num constant] = 1 := rfl
    have constant_eq := after.constant_eq
    cases theNumbers : numbers operands with
    | nil =>
        rw [theNumbers] at constant_eq
        exact absurd constant_eq idle
    | cons value rest =>
        have numberCount : (numbers operands).length = rest.length + 1 := by
          rw [theNumbers, List.length_cons]
        obtain ⟨distinct, amounts⟩ := after.tight lawful (by omega)
        have lengthSame :=
          (after.perm_rebuilt lawful canonical distinct amounts).length_eq
        have single : rest = [] := List.length_eq_zero_iff.mp (by omega)
        subst single
        rw [theNumbers, List.foldl_cons, List.foldl_nil,
          lawful.combine_neutral] at constant_eq
        rw [List.length_append] at several
        refine ⟨by simpa [lengthSame, lengths, theNumbers] using several,
          distinct, amounts, by simp [theNumbers], ?_⟩
        have ordinary := after.noAbsorbing
        simp only [theNumbers, List.mem_singleton, forall_eq] at ordinary ⊢
        exact ⟨constant_eq ▸ idle, ordinary⟩

/-- Collecting operands that were not collected yet makes the node lighter. -/
theorem weight_finish_lt
    {nodeWeight : Nat → Nat}
    (lawful : collector.Lawful nodeWeight)
    {operands : List AtomTree}
    (canonical : ∀ operand ∈ operands, operand.Canonical)
    (notSeparate : ¬ collector.Separate operands) :
    weight (collector.finish operands) < nodeWeight (weightAll operands) := by
  have heavy := lawful.four_le_nodeWeight (weightAll operands)
  have heavier := lawful.nodeWeight_gt (weightAll operands)
  rw [Collector.finish]
  split
  case h_1 value _ =>
    simp only [weight]
    omega
  case h_2 entries constant collects =>
    have after := Collector.collected_nil.collect lawful canonical collects
    rw [List.nil_append] at after
    by_cases several : 2 ≤ (collector.collected entries constant).length
    · have lighter :=
        weightAll_collected_lt lawful canonical after several notSeparate
      rw [assemble_of_two_le several]
      have built := lawful.weight_build (collector.collected entries constant)
      have atLeast := length_le_weightAll (collector.collected entries constant)
      exact built.trans_lt (lawful.nodeWeight_lt lighter (by omega))
    · obtain ⟨only, single⟩ : ∃ only,
          collector.collected entries constant = [only] := by
        apply List.length_eq_one_iff.mp
        have nonempty := List.length_pos_iff.mpr
          (collected_ne_nil collector entries constant)
        omega
      rw [single]
      simp only [Collector.assemble]
      have light := weight_of_collected_singleton lawful single
      have bounded := after.bounded
      have total := weightAll_eq operands
      omega

/-- The keys that the loop enters are canonical. -/
private theorem canonical_collect
    {nodeWeight : Nat → Nat}
    (lawful : collector.Lawful nodeWeight)
    {operands : List AtomTree}
    (canonical : ∀ operand ∈ operands, operand.Canonical)
    {entries entriesAfter : Entries}
    {constant constantAfter : ℚ}
    (before : ∀ key ∈ entries.map Prod.fst, key.Canonical)
    (collects :
      collector.collect operands entries constant =
        .ok (entriesAfter, constantAfter)) :
    ∀ key ∈ entriesAfter.map Prod.fst, key.Canonical := by
  induction operands generalizing entries constant with
  | nil =>
      cases collects
      exact before
  | cons operand rest inductionHypothesis =>
      have later : ∀ other ∈ rest, other.Canonical :=
        fun other member => canonical other (by simp [member])
      simp only [Collector.collect] at collects
      cases isNumber : operand.numValue? with
      | some value =>
          simp only [isNumber] at collects
          split_ifs at collects
          exact inductionHypothesis later before collects
      | none =>
          rw [isNumber] at collects
          refine inductionHypothesis later ?_ collects
          intro key member
          rcases OrderedMap.mem_keys_accumulate member with rfl | old
          · exact lawful.key_canonical (canonical operand (by simp))
          · exact before key old

/-- Rebuilt operands are canonical. -/
private theorem canonical_rebuilt
    {nodeWeight : Nat → Nat}
    (lawful : collector.Lawful nodeWeight)
    {entry : AtomTree × ℚ}
    (canonical : entry.1.Canonical)
    {operand : AtomTree}
    (member : operand ∈ collector.rebuilt entry) :
    operand.Canonical := by
  simp only [Collector.rebuilt] at member
  split_ifs at member
  · cases member
  · rw [List.mem_singleton.mp member]
    exact canonical
  · rw [List.mem_singleton.mp member]
    exact lawful.rebuild_canonical entry.2 canonical

/-- Collecting canonical operands gives a canonical tree. -/
theorem canonical_finish
    {nodeWeight : Nat → Nat}
    (lawful : collector.Lawful nodeWeight)
    {operands : List AtomTree}
    (canonical : ∀ operand ∈ operands, operand.Canonical) :
    (collector.finish operands).Canonical := by
  rw [Collector.finish]
  split
  case h_1 value _ =>
    exact .num value
  case h_2 entries constant collects =>
    have keys :=
      canonical_collect lawful canonical (by simp) collects
    have rebuilt :
        ∀ operand ∈ entries.flatMap collector.rebuilt, operand.Canonical := by
      intro operand member
      obtain ⟨entry, entryMember, operandMember⟩ := List.mem_flatMap.mp member
      exact canonical_rebuilt lawful
        (keys entry.1 (List.mem_map_of_mem entryMember)) operandMember
    have collected :
        ∀ operand ∈ collector.collected entries constant,
          operand.Canonical := by
      intro operand member
      simp only [Collector.collected] at member
      split_ifs at member
      · rcases List.mem_append.mp member with old | new
        · exact rebuilt operand old
        · rw [List.mem_singleton.mp new]
          exact .num constant
      · exact rebuilt operand member
    rw [Collector.assemble.eq_def]
    split
    case h_1 only single =>
      rw [single] at collected
      exact collected only (by simp)
    case h_2 =>
      exact lawful.build_canonical collected

private theorem weight_normalize_le
    {tree : AtomTree}
    (facts : weight tree.normalize < weight tree ∨ tree.normalize = tree) :
    weight tree.normalize ≤ weight tree := by
  rcases facts with lighter | same
  · exact lighter.le
  · rw [same]

/-- Normalizing children makes them lighter together, or leaves all alone. -/
private theorem weightAll_map_normalize
    {children : List AtomTree}
    (childFacts :
      ∀ child ∈ children,
        weight child.normalize < weight child ∨ child.normalize = child) :
    (weightAll (children.map normalize) < weightAll children ∧
        3 ≤ weightAll children) ∨
      children.map normalize = children := by
  induction children with
  | nil =>
      exact Or.inr rfl
  | cons child rest inductionHypothesis =>
      have restFacts :=
        inductionHypothesis fun other member =>
          childFacts other (by simp [member])
      have positive := weight_pos child
      simp only [List.map_cons, weightAll_cons, List.cons.injEq]
      rcases childFacts child (by simp) with childLighter | childSame
      · left
        have isSymbolic : child.numValue? = none := by
          cases isNumber : child.numValue? with
          | none =>
              rfl
          | some value =>
              rw [eq_num_of_numValue? isNumber] at childLighter
              exact absurd childLighter (Nat.lt_irrefl _)
        have heavy := four_le_weight isSymbolic
        rcases restFacts with ⟨restLighter, -⟩ | restSame
        · omega
        · rw [restSame]
          omega
      · rcases restFacts with ⟨restLighter, enough⟩ | restSame
        · left
          rw [childSame]
          omega
        · exact Or.inr ⟨childSame, restSame⟩

/-- The weight argument for one node over its normalized children. -/
private theorem weight_finish_map
    {nodeWeight : Nat → Nat}
    (lawful : collector.Lawful nodeWeight)
    {children : List AtomTree}
    (canonical : ∀ child ∈ children.map normalize, child.Canonical)
    (childFacts :
      ∀ child ∈ children,
        weight child.normalize < weight child ∨ child.normalize = child) :
    weight (collector.finish (children.map normalize)) <
        nodeWeight (weightAll children) ∨
      children.map normalize = children ∧ collector.Separate children := by
  by_cases unchanged : children.map normalize = children
  · rw [unchanged] at canonical ⊢
    by_cases separate : collector.Separate children
    · exact Or.inr ⟨rfl, separate⟩
    · exact Or.inl (weight_finish_lt lawful canonical separate)
  · left
    have atMost :
        weight (collector.finish (children.map normalize)) ≤
          nodeWeight (weightAll (children.map normalize)) := by
      by_cases separate : collector.Separate (children.map normalize)
      · rw [finish_of_separate lawful canonical separate]
        exact lawful.weight_build _
      · exact (weight_finish_lt lawful canonical separate).le
    obtain ⟨lighter, enough⟩ :=
      (weightAll_map_normalize childFacts).resolve_right unchanged
    exact atMost.trans_lt (lawful.nodeWeight_lt lighter enough)

end Collecting

/-- Normalization keeps trees canonical. -/
theorem Canonical.normalize
    {tree : AtomTree}
    (canonical : tree.Canonical) :
    tree.normalize.Canonical := by
  induction canonical with
  | num value =>
      exact .num value
  | var symbol =>
      exact .var symbol
  | add _ _ _ inductionHypothesis =>
      rw [AtomTree.normalize, normalizeAll_eq_map]
      apply canonical_finish lawful_sums
      simpa using inductionHypothesis
  | mul _ _ _ inductionHypothesis =>
      rw [AtomTree.normalize, normalizeAll_eq_map]
      apply canonical_finish lawful_products
      simpa using inductionHypothesis
  | pow _ _ baseCanonical exponentCanonical =>
      rw [AtomTree.normalize, normalizePow]
      split
      · split_ifs
        · exact .num 1
        · exact baseCanonical
        · exact .pow baseCanonical exponentCanonical
      · exact .pow baseCanonical exponentCanonical
  | func head _ inductionHypothesis =>
      rw [AtomTree.normalize, normalizeAll_eq_map]
      apply Canonical.func
      simpa using inductionHypothesis

/-- A power is lighter after folding, and otherwise kept. -/
private theorem weight_normalizePow
    (base exponent : AtomTree) :
    weight (normalizePow base exponent) < 2 + weight base + weight exponent ∨
      normalizePow base exponent = .pow base exponent ∧
        exponent ≠ .num 0 ∧ exponent ≠ .num 1 := by
  have baseWeight := weight_pos base
  have exponentWeight := weight_pos exponent
  cases isNumber : exponent.numValue? with
  | none =>
      right
      simp only [normalizePow, isNumber, true_and]
      constructor <;> rintro rfl <;> cases isNumber
  | some value =>
      simp only [normalizePow, isNumber]
      rw [eq_num_of_numValue? isNumber]
      split_ifs with isZero isUnit
      · left
        simp only [weight]
        omega
      · left
        simp only [weight]
        omega
      · right
        simp [isZero, isUnit]

/-- Normalized canonical children are canonical. -/
theorem canonical_map_normalize
    {children : List AtomTree}
    (canonical : ∀ child ∈ children, child.Canonical) :
    ∀ child ∈ children.map normalize, child.Canonical := by
  intro child member
  obtain ⟨original, originalMember, rfl⟩ := List.mem_map.mp member
  exact (canonical original originalMember).normalize

/-- Normalization makes a canonical tree lighter or leaves it alone. -/
theorem weight_normalize
    {tree : AtomTree}
    (canonical : tree.Canonical) :
    weight tree.normalize < weight tree ∨ tree.normalize = tree := by
  have whole := canonical
  induction canonical with
  | num value =>
      exact Or.inr rfl
  | var symbol =>
      exact Or.inr rfl
  | @add terms termsCanonical _ _ inductionHypothesis =>
      rw [AtomTree.normalize, normalizeAll_eq_map]
      have childFacts :=
        fun term member =>
          inductionHypothesis term member (termsCanonical term member)
      rcases weight_finish_map lawful_sums
        (canonical_map_normalize termsCanonical) childFacts with
        lighter | ⟨unchanged, separate⟩
      · exact Or.inl lighter
      · right
        rw [unchanged, normalizeAdd,
          finish_of_separate lawful_sums termsCanonical separate]
        exact mkAdd_children whole
  | @mul factors factorsCanonical _ _ inductionHypothesis =>
      rw [AtomTree.normalize, normalizeAll_eq_map]
      have childFacts :=
        fun factor member =>
          inductionHypothesis factor member (factorsCanonical factor member)
      rcases weight_finish_map lawful_products
        (canonical_map_normalize factorsCanonical) childFacts with
        lighter | ⟨unchanged, separate⟩
      · exact Or.inl lighter
      · right
        rw [unchanged, normalizeMul,
          finish_of_separate lawful_products factorsCanonical separate]
        exact mkMul_children whole
  | @pow base exponent baseCanonical exponentCanonical baseHypothesis
      exponentHypothesis =>
      rw [AtomTree.normalize]
      have baseFacts := baseHypothesis baseCanonical
      have exponentFacts := exponentHypothesis exponentCanonical
      have baseAtMost := weight_normalize_le baseFacts
      have exponentAtMost := weight_normalize_le exponentFacts
      rcases weight_normalizePow base.normalize exponent.normalize with
        lighter | ⟨kept, -, -⟩
      · left
        simp only [weight]
        omega
      · rw [kept]
        simp only [weight]
        rcases baseFacts with baseLighter | baseSame
        · left
          omega
        · rcases exponentFacts with exponentLighter | exponentSame
          · left
            omega
          · right
            rw [baseSame, exponentSame]
  | @func head arguments argumentsCanonical inductionHypothesis =>
      rw [AtomTree.normalize, normalizeAll_eq_map]
      have childFacts :=
        fun argument member =>
          inductionHypothesis argument member (argumentsCanonical argument member)
      rcases weightAll_map_normalize childFacts with ⟨lighter, -⟩ | unchanged
      · exact Or.inl (Nat.add_lt_add_left lighter 4)
      · exact Or.inr (congrArg _ unchanged)

/-- Children are left alone together when they are left alone one by one. -/
private theorem map_normalize_eq_iff
    {children : List AtomTree} :
    children.map normalize = children ↔
      ∀ child ∈ children, child.normalize = child := by
  have sameAs := List.map_inj_left (f := normalize) (g := id) (l := children)
  rwa [List.map_id] at sameAs

/-- Normal children of a canonical node are left alone. -/
private theorem map_normalize_eq_of_normal
    {children : List AtomTree}
    (canonical : ∀ child ∈ children, child.Canonical)
    (inductionHypothesis :
      ∀ child ∈ children,
        child.Canonical → (child.normalize = child ↔ child.Normal)) :
    children.map normalize = children ↔
      ∀ child ∈ children, child.Normal := by
  rw [map_normalize_eq_iff]
  constructor
  · intro unchanged child member
    exact (inductionHypothesis child member (canonical child member)).mp
      (unchanged child member)
  · intro normal child member
    exact (inductionHypothesis child member (canonical child member)).mpr
      (normal child member)

/-- Normalization leaves exactly the normal trees alone. -/
theorem normalize_eq_self_iff
    {tree : AtomTree}
    (canonical : tree.Canonical) :
    tree.normalize = tree ↔ tree.Normal := by
  have whole := canonical
  induction canonical with
  | num value =>
      exact ⟨fun _ => .num value, fun _ => rfl⟩
  | var symbol =>
      exact ⟨fun _ => .var symbol, fun _ => rfl⟩
  | @add terms termsCanonical _ _ inductionHypothesis =>
      have childrenNormal :=
        map_normalize_eq_of_normal termsCanonical inductionHypothesis
      rw [AtomTree.normalize, normalizeAll_eq_map]
      constructor
      · intro same
        rcases weight_finish_map lawful_sums
          (canonical_map_normalize termsCanonical)
          (fun term member => weight_normalize (termsCanonical term member)) with
          lighter | ⟨unchanged, separate⟩
        · exact absurd (congrArg weight same) lighter.ne
        · exact .add (childrenNormal.mp unchanged) separate
      · rintro ⟨⟩
        rename_i normal separate
        rw [childrenNormal.mpr normal, normalizeAdd,
          finish_of_separate lawful_sums termsCanonical separate]
        exact mkAdd_children whole
  | @mul factors factorsCanonical _ _ inductionHypothesis =>
      have childrenNormal :=
        map_normalize_eq_of_normal factorsCanonical inductionHypothesis
      rw [AtomTree.normalize, normalizeAll_eq_map]
      constructor
      · intro same
        rcases weight_finish_map lawful_products
          (canonical_map_normalize factorsCanonical)
          (fun factor member =>
            weight_normalize (factorsCanonical factor member)) with
          lighter | ⟨unchanged, separate⟩
        · exact absurd (congrArg weight same) lighter.ne
        · exact .mul (childrenNormal.mp unchanged) separate
      · rintro ⟨⟩
        rename_i normal separate
        rw [childrenNormal.mpr normal, normalizeMul,
          finish_of_separate lawful_products factorsCanonical separate]
        exact mkMul_children whole
  | @pow base exponent baseCanonical exponentCanonical baseHypothesis
      exponentHypothesis =>
      have baseNormal := baseHypothesis baseCanonical
      have exponentNormal := exponentHypothesis exponentCanonical
      rw [AtomTree.normalize]
      constructor
      · intro same
        rcases weight_normalizePow base.normalize exponent.normalize with
          lighter | ⟨kept, notZero, notOne⟩
        · have baseAtMost := weight_normalize_le (weight_normalize baseCanonical)
          have exponentAtMost :=
            weight_normalize_le (weight_normalize exponentCanonical)
          rw [same, weight] at lighter
          omega
        · rw [kept, pow.injEq] at same
          rw [same.2] at notZero notOne
          exact .pow (baseNormal.mp same.1) (exponentNormal.mp same.2)
            notZero notOne
      · rintro ⟨⟩
        rename_i isBase isExponent notZero notOne
        rw [baseNormal.mpr isBase, exponentNormal.mpr isExponent]
        cases isNumber : exponent.numValue? with
        | none =>
            simp [normalizePow, isNumber]
        | some value =>
            rw [eq_num_of_numValue? isNumber] at notZero notOne
            simp only [ne_eq, num.injEq] at notZero notOne
            simp [normalizePow, isNumber, notZero, notOne]
  | @func head arguments argumentsCanonical inductionHypothesis =>
      have childrenNormal :=
        map_normalize_eq_of_normal argumentsCanonical inductionHypothesis
      rw [AtomTree.normalize, normalizeAll_eq_map, func.injEq, childrenNormal]
      constructor
      · rintro ⟨-, normal⟩
        exact .func head normal
      · rintro ⟨⟩
        rename_i normal
        exact ⟨rfl, normal⟩

end AtomTree

end AtomCore
