import Stocas.Pattern.Matcher

namespace PatternCore

open AtomCore (AtomTree)
open SymbolTable (Snapshot Symbol)

/-!
# Equality up to order

Atoms are compared with the children of sums and products, and the arguments of
`Symmetric` functions, taken as multisets.  Two atoms are equal so when they
become the same by sorting these children at every level.
-/

mutual

/-- Sort what is compared without order, from the leaves up. -/
def arrange (table : Snapshot) : AtomTree → AtomTree
  | .num value => .num value
  | .var symbol => .var symbol
  | .add terms => .add ((arrangeAll table terms).insertionSort (· ≤ ·))
  | .mul factors => .mul ((arrangeAll table factors).insertionSort (· ≤ ·))
  | .pow base exponent => .pow (arrange table base) (arrange table exponent)
  | .func head arguments =>
      if isSymmetric table head then
        .func head ((arrangeAll table arguments).insertionSort (· ≤ ·))
      else
        .func head (arrangeAll table arguments)

/-- The same for every child. -/
def arrangeAll (table : Snapshot) : List AtomTree → List AtomTree
  | [] => []
  | tree :: rest => arrange table tree :: arrangeAll table rest

end

@[simp] theorem arrangeAll_eq_map
    (table : Snapshot)
    (trees : List AtomTree) :
    arrangeAll table trees = trees.map (arrange table) := by
  induction trees with
  | nil =>
      rfl
  | cons tree rest inductionHypothesis =>
      simp only [arrangeAll, inductionHypothesis, List.map_cons]

/-- Equality, with sums, products and `Symmetric` calls as multisets. -/
def EqualUpToOrder (table : Snapshot) (first second : AtomTree) : Prop :=
  arrange table first = arrange table second

instance (table : Snapshot) (first second : AtomTree) :
    Decidable (EqualUpToOrder table first second) :=
  inferInstanceAs (Decidable (arrange table first = arrange table second))

/-- Equality of lists as multisets, up to order inside the elements. -/
def SameMultiset (table : Snapshot) (firsts seconds : List AtomTree) : Prop :=
  (firsts.map (arrange table)).Perm (seconds.map (arrange table))

variable {table : Snapshot}

/-- Sorting makes lists equal exactly when they are permutations. -/
theorem insertionSort_eq_iff
    {firsts seconds : List AtomTree} :
    firsts.insertionSort (· ≤ ·) = seconds.insertionSort (· ≤ ·) ↔
      firsts.Perm seconds := by
  constructor
  · intro same
    have sorted := List.perm_insertionSort (· ≤ ·) seconds
    rw [← same] at sorted
    exact (List.perm_insertionSort (· ≤ ·) firsts).symm.trans sorted
  · intro permuted
    apply List.Perm.eq_of_pairwise'
      (List.pairwise_insertionSort _ firsts)
      (List.pairwise_insertionSort _ seconds)
    exact (List.perm_insertionSort _ firsts).trans
      (permuted.trans (List.perm_insertionSort _ seconds).symm)

/-- `same_multiset` compares lists up to their order. -/
theorem sameMultiset_iff
    {lhs rhs : List AtomTree} :
    sameMultiset lhs rhs = true ↔ lhs.Perm rhs := by
  simp only [sameMultiset, Bool.and_eq_true, beq_iff_eq, insertionSort_eq_iff]
  constructor
  · exact And.right
  · intro permuted
    exact ⟨permuted.length_eq, permuted⟩

theorem equal_add_iff
    {terms others : List AtomTree} :
    EqualUpToOrder table (.add terms) (.add others) ↔
      SameMultiset table terms others := by
  simp only [EqualUpToOrder, arrange, AtomTree.add.injEq, arrangeAll_eq_map,
    insertionSort_eq_iff, SameMultiset]

theorem equal_mul_iff
    {factors others : List AtomTree} :
    EqualUpToOrder table (.mul factors) (.mul others) ↔
      SameMultiset table factors others := by
  simp only [EqualUpToOrder, arrange, AtomTree.mul.injEq, arrangeAll_eq_map,
    insertionSort_eq_iff, SameMultiset]

theorem equal_pow_iff
    {base exponent otherBase otherExponent : AtomTree} :
    EqualUpToOrder table (.pow base exponent)
        (.pow otherBase otherExponent) ↔
      EqualUpToOrder table base otherBase ∧
        EqualUpToOrder table exponent otherExponent := by
  simp only [EqualUpToOrder, arrange, AtomTree.pow.injEq]

theorem equal_symmetric_iff
    {head : Symbol}
    (symmetric : isSymmetric table head = true)
    {arguments others : List AtomTree} :
    EqualUpToOrder table (.func head arguments) (.func head others) ↔
      SameMultiset table arguments others := by
  simp only [EqualUpToOrder, arrange, symmetric, if_true,
    AtomTree.func.injEq, true_and, arrangeAll_eq_map, insertionSort_eq_iff,
    SameMultiset]

theorem equal_positional_iff
    {head : Symbol}
    (positional : isSymmetric table head = false)
    {arguments others : List AtomTree} :
    EqualUpToOrder table (.func head arguments) (.func head others) ↔
      arguments.map (arrange table) = others.map (arrange table) := by
  simp only [EqualUpToOrder, arrange, positional, Bool.false_eq_true, if_false,
    AtomTree.func.injEq, true_and, arrangeAll_eq_map]

end PatternCore
