import Mathlib.Algebra.BigOperators.Group.List.Basic
import Mathlib.Algebra.Group.TypeTags.Basic
import Mathlib.Algebra.Order.Field.Rat
import Mathlib.Data.List.Sort
import Stocas.Library.Lexicographic
import Stocas.SymbolTable.Table

namespace AtomCore

open SymbolTable (Symbol)

/-!
# Expression trees

An `AtomView` is a slot of an arena; everything its read-only interface shows
(`tag`, `as_num`, `as_var`, `function_head`, `child`, `operator<=>`) is a
function of the tree below that slot.  `AtomTree` is that tree.  This module
gives its canonical order and the canonical forms that the builders produce;
the arena itself and the slots come in the modules after it.
-/

/-- `AtomTag`, in declaration order. -/
inductive AtomTag where
  | num
  | var
  | add
  | mul
  | pow
  | func
  deriving Repr, DecidableEq

/-- The position of a tag in its declaration, which orders atoms first. -/
def AtomTag.rank : AtomTag → Nat
  | .num => 0
  | .var => 1
  | .add => 2
  | .mul => 3
  | .pow => 4
  | .func => 5

theorem AtomTag.rank_injective :
    Function.Injective AtomTag.rank := by
  intro first second same
  cases first <;> cases second <;> first | rfl | cases same

/-- The expression below an arena slot. -/
inductive AtomTree where
  | num (value : ℚ)
  | var (symbol : Symbol)
  | add (terms : List AtomTree)
  | mul (factors : List AtomTree)
  | pow (base exponent : AtomTree)
  | func (head : Symbol) (arguments : List AtomTree)
  deriving Repr

namespace AtomTree

/-- Induction over trees, with the hypothesis for every child of a node. -/
@[induction_eliminator]
theorem childInduction
    {motive : AtomTree → Prop}
    (num : ∀ value, motive (.num value))
    (var : ∀ symbol, motive (.var symbol))
    (add :
      ∀ terms, (∀ term ∈ terms, motive term) → motive (.add terms))
    (mul :
      ∀ factors, (∀ factor ∈ factors, motive factor) → motive (.mul factors))
    (pow :
      ∀ base exponent, motive base → motive exponent →
        motive (.pow base exponent))
    (func :
      ∀ head arguments, (∀ argument ∈ arguments, motive argument) →
        motive (.func head arguments))
    (tree : AtomTree) :
    motive tree :=
  @AtomTree.rec motive (fun trees => ∀ tree ∈ trees, motive tree)
    num var add mul pow func
    (fun _ member => absurd member List.not_mem_nil)
    (fun _ _ head tail => List.forall_mem_cons.mpr ⟨head, tail⟩)
    tree

/-- `AtomView::tag`. -/
def tag : AtomTree → AtomTag
  | .num _ => .num
  | .var _ => .var
  | .add _ => .add
  | .mul _ => .mul
  | .pow _ _ => .pow
  | .func _ _ => .func

/-- The children in order; `Num` and `Var` have none. -/
def children : AtomTree → List AtomTree
  | .num _ => []
  | .var _ => []
  | .add terms => terms
  | .mul factors => factors
  | .pow base exponent => [base, exponent]
  | .func _ arguments => arguments

theorem eq_mul_of_children
    {tree : AtomTree}
    {factors : List AtomTree}
    (isMul : tree.tag = .mul)
    (children_eq : tree.children = factors) :
    tree = .mul factors := by
  cases tree <;> cases isMul
  rw [← children_eq, children]

theorem eq_pow_of_children
    {tree base exponent : AtomTree}
    (isPow : tree.tag = .pow)
    (children_eq : tree.children = [base, exponent]) :
    tree = .pow base exponent := by
  cases tree <;> cases isPow
  cases children_eq
  rfl

mutual

/-- `AtomView::operator<=>`: by tag, then payload, then children. -/
def compare : AtomTree → AtomTree → Ordering
  | .num first, .num second => Ord.compare first second
  | .var first, .var second => Ord.compare first.id second.id
  | .add first, .add second => compareChildren first second
  | .mul first, .mul second => compareChildren first second
  | .pow base exponent, .pow otherBase otherExponent =>
      (compare base otherBase).then (compare exponent otherExponent)
  | .func head arguments, .func otherHead otherArguments =>
      (Ord.compare head.id otherHead.id).then
        (compareChildren arguments otherArguments)
  | first, second => Ord.compare first.tag.rank second.tag.rank

/-- Children are compared one by one, and their counts last. -/
def compareChildren : List AtomTree → List AtomTree → Ordering
  | [], [] => .eq
  | [], _ :: _ => .lt
  | _ :: _, [] => .gt
  | first :: rest, second :: others =>
      (compare first second).then (compareChildren rest others)

end

open Lexicographic (lexCompare)

/-- Comparing children is the lexicographic comparison of lists. -/
theorem compareChildren_eq_lexCompare
    (firsts seconds : List AtomTree) :
    compareChildren firsts seconds = lexCompare compare firsts seconds := by
  induction firsts generalizing seconds with
  | nil =>
      cases seconds <;> rfl
  | cons first rest inductionHypothesis =>
      cases seconds with
      | nil =>
          rfl
      | cons second others =>
          simp only [compareChildren, lexCompare, inductionHypothesis]

/-- Atoms of different kinds are ordered by their tags. -/
theorem compare_of_tag_ne
    {first second : AtomTree}
    (different : first.tag ≠ second.tag) :
    compare first second = Ord.compare first.tag.rank second.tag.rank := by
  cases first <;> cases second <;>
    first
      | exact absurd rfl different
      | simp only [compare]

/-- Atoms of different kinds differ, and the comparison sees it. -/
private theorem compare_eq_iff_of_tag_ne
    {first second : AtomTree}
    (different : first.tag ≠ second.tag) :
    compare first second = .eq ↔ first = second := by
  rw [compare_of_tag_ne different]
  constructor
  · intro same
    exact absurd (AtomTag.rank_injective (compare_eq_iff_eq.mp same)) different
  · rintro rfl
    exact (different rfl).elim

/-- `operator==`: the comparison finds no difference exactly on equal trees. -/
theorem compare_eq_iff
    {first second : AtomTree} :
    compare first second = .eq ↔ first = second := by
  by_cases sameTag : first.tag = second.tag
  case neg =>
    exact compare_eq_iff_of_tag_ne sameTag
  clear sameTag
  induction first generalizing second with
  | num value =>
      cases second with
      | num other =>
          simp only [compare, compare_eq_iff_eq, num.injEq]
      | _ =>
          exact compare_eq_iff_of_tag_ne nofun
  | var symbol =>
      cases second with
      | var other =>
          rcases symbol with ⟨id⟩
          rcases other with ⟨otherId⟩
          simp only [compare, compare_eq_iff_eq, var.injEq,
            Symbol.mk.injEq]
      | _ =>
          exact compare_eq_iff_of_tag_ne nofun
  | add terms inductionHypothesis =>
      cases second with
      | add others =>
          simp only [compare, compareChildren_eq_lexCompare, add.injEq]
          exact Lexicographic.lexCompare_eq_iff
            fun term member _ => inductionHypothesis term member
      | _ =>
          exact compare_eq_iff_of_tag_ne nofun
  | mul factors inductionHypothesis =>
      cases second with
      | mul others =>
          simp only [compare, compareChildren_eq_lexCompare, mul.injEq]
          exact Lexicographic.lexCompare_eq_iff
            fun factor member _ => inductionHypothesis factor member
      | _ =>
          exact compare_eq_iff_of_tag_ne nofun
  | pow base exponent baseHypothesis exponentHypothesis =>
      cases second with
      | pow otherBase otherExponent =>
          simp only [compare, Ordering.then_eq_eq, baseHypothesis,
            exponentHypothesis, pow.injEq]
      | _ =>
          exact compare_eq_iff_of_tag_ne nofun
  | func head arguments inductionHypothesis =>
      cases second with
      | func otherHead others =>
          rcases head with ⟨id⟩
          rcases otherHead with ⟨otherId⟩
          simp only [compare, compareChildren_eq_lexCompare,
            Ordering.then_eq_eq, compare_eq_iff_eq, func.injEq,
            Symbol.mk.injEq,
            Lexicographic.lexCompare_eq_iff
              fun argument member _ => inductionHypothesis argument member]
      | _ =>
          exact compare_eq_iff_of_tag_ne nofun

/-- Exchanging the operands reverses the outcome. -/
theorem compare_swap
    (first second : AtomTree) :
    (compare first second).swap = compare second first := by
  have numbers : ∀ one two : Nat,
      (Ord.compare one two).swap = Ord.compare two one :=
    fun one two => Std.OrientedCmp.eq_swap.symm
  have mixed :
      ∀ {one two : AtomTree},
        one.tag ≠ two.tag →
        (compare one two).swap = compare two one := by
    intro one two different
    rw [compare_of_tag_ne different, compare_of_tag_ne (Ne.symm different),
      numbers]
  induction first generalizing second with
  | num value =>
      cases second with
      | num other =>
          simp only [compare]
          exact Std.OrientedCmp.eq_swap.symm
      | _ =>
          exact mixed nofun
  | var symbol =>
      cases second with
      | var other =>
          simp only [compare, numbers]
      | _ =>
          exact mixed nofun
  | add terms inductionHypothesis =>
      cases second with
      | add others =>
          simp only [compare, compareChildren_eq_lexCompare]
          exact Lexicographic.lexCompare_swap inductionHypothesis
      | _ =>
          exact mixed nofun
  | mul factors inductionHypothesis =>
      cases second with
      | mul others =>
          simp only [compare, compareChildren_eq_lexCompare]
          exact Lexicographic.lexCompare_swap inductionHypothesis
      | _ =>
          exact mixed nofun
  | pow base exponent baseHypothesis exponentHypothesis =>
      cases second with
      | pow otherBase otherExponent =>
          simp only [compare, Ordering.swap_then, baseHypothesis,
            exponentHypothesis]
      | _ =>
          exact mixed nofun
  | func head arguments inductionHypothesis =>
      cases second with
      | func otherHead others =>
          simp only [compare, compareChildren_eq_lexCompare,
            Ordering.swap_then, numbers,
            Lexicographic.lexCompare_swap inductionHypothesis]
      | _ =>
          exact mixed nofun

/-- A smaller atom has a tag that is declared no later. -/
private theorem rank_le_of_compare_lt
    {first second : AtomTree}
    (below : compare first second = .lt) :
    first.tag.rank ≤ second.tag.rank := by
  by_cases sameTag : first.tag = second.tag
  · rw [sameTag]
  · rw [compare_of_tag_ne sameTag, compare_lt_iff_lt] at below
    exact below.le

/-- Transitivity when the three atoms are not all of one kind. -/
private theorem compare_trans_of_tag_ne
    {first second third : AtomTree}
    (below : compare first second = .lt)
    (above : compare second third = .lt)
    (different : first.tag ≠ second.tag ∨ second.tag ≠ third.tag) :
    compare first third = .lt := by
  have lower := rank_le_of_compare_lt below
  have upper := rank_le_of_compare_lt above
  have strict : first.tag.rank < third.tag.rank := by
    rcases different with lowerDiffers | upperDiffers
    · have ranksDiffer :=
        fun same => lowerDiffers (AtomTag.rank_injective same)
      exact (lt_of_le_of_ne lower ranksDiffer).trans_le upper
    · have ranksDiffer :=
        fun same => upperDiffers (AtomTag.rank_injective same)
      exact lower.trans_lt (lt_of_le_of_ne upper ranksDiffer)
  have tagsDiffer : first.tag ≠ third.tag :=
    fun same => strict.ne (congrArg AtomTag.rank same)
  rw [compare_of_tag_ne tagsDiffer, compare_lt_iff_lt]
  exact strict

/-- The strict order is transitive. -/
theorem compare_trans
    {first second third : AtomTree}
    (below : compare first second = .lt)
    (above : compare second third = .lt) :
    compare first third = .lt := by
  induction first generalizing second third with
  | num value =>
      cases second with
      | num middle =>
          cases third with
          | num other =>
              simp only [compare, compare_lt_iff_lt] at *
              exact below.trans above
          | _ =>
              exact compare_trans_of_tag_ne below above (Or.inr nofun)
      | _ =>
          exact compare_trans_of_tag_ne below above (Or.inl nofun)
  | var symbol =>
      cases second with
      | var middle =>
          cases third with
          | var other =>
              simp only [compare, compare_lt_iff_lt] at *
              exact below.trans above
          | _ =>
              exact compare_trans_of_tag_ne below above (Or.inr nofun)
      | _ =>
          exact compare_trans_of_tag_ne below above (Or.inl nofun)
  | add terms inductionHypothesis =>
      cases second with
      | add middles =>
          cases third with
          | add others =>
              simp only [compare, compareChildren_eq_lexCompare] at *
              exact Lexicographic.lexCompare_trans
                (fun _ _ => compare_eq_iff)
                (fun term member _ _ => inductionHypothesis term member)
                below above
          | _ =>
              exact compare_trans_of_tag_ne below above (Or.inr nofun)
      | _ =>
          exact compare_trans_of_tag_ne below above (Or.inl nofun)
  | mul factors inductionHypothesis =>
      cases second with
      | mul middles =>
          cases third with
          | mul others =>
              simp only [compare, compareChildren_eq_lexCompare] at *
              exact Lexicographic.lexCompare_trans
                (fun _ _ => compare_eq_iff)
                (fun factor member _ _ => inductionHypothesis factor member)
                below above
          | _ =>
              exact compare_trans_of_tag_ne below above (Or.inr nofun)
      | _ =>
          exact compare_trans_of_tag_ne below above (Or.inl nofun)
  | pow base exponent baseHypothesis exponentHypothesis =>
      cases second with
      | pow middleBase middleExponent =>
          cases third with
          | pow otherBase otherExponent =>
              simp only [compare, Ordering.then_eq_lt] at below above ⊢
              rcases below with baseBelow | ⟨baseSame, exponentBelow⟩
              · rcases above with baseAbove | ⟨baseEqual, -⟩
                · exact Or.inl (baseHypothesis baseBelow baseAbove)
                · rw [compare_eq_iff.mp baseEqual] at baseBelow
                  exact Or.inl baseBelow
              · rw [compare_eq_iff.mp baseSame]
                rcases above with baseAbove | ⟨baseEqual, exponentAbove⟩
                · exact Or.inl baseAbove
                · exact Or.inr ⟨baseEqual,
                    exponentHypothesis exponentBelow exponentAbove⟩
          | _ =>
              exact compare_trans_of_tag_ne below above (Or.inr nofun)
      | _ =>
          exact compare_trans_of_tag_ne below above (Or.inl nofun)
  | func head arguments inductionHypothesis =>
      cases second with
      | func middleHead middles =>
          cases third with
          | func otherHead others =>
              simp only [compare, compareChildren_eq_lexCompare,
                Ordering.then_eq_lt, compare_lt_iff_lt,
                compare_eq_iff_eq] at below above ⊢
              rcases below with headBelow | ⟨headSame, restBelow⟩
              · rcases above with headAbove | ⟨headEqual, -⟩
                · exact Or.inl (headBelow.trans headAbove)
                · exact Or.inl (headBelow.trans_eq headEqual)
              · rcases above with headAbove | ⟨headEqual, restAbove⟩
                · exact Or.inl (headSame.trans_lt headAbove)
                · exact Or.inr ⟨headSame.trans headEqual,
                    Lexicographic.lexCompare_trans
                      (fun _ _ => compare_eq_iff)
                      (fun argument member _ _ =>
                        inductionHypothesis argument member)
                      restBelow restAbove⟩
          | _ =>
              exact compare_trans_of_tag_ne below above (Or.inr nofun)
      | _ =>
          exact compare_trans_of_tag_ne below above (Or.inl nofun)

/-- `operator<=>` is a linear order on atoms. -/
instance : LinearOrder AtomTree where
  le first second := compare first second ≠ .gt
  lt first second := compare first second = .lt
  compare := compare
  le_refl tree := by
    rw [compare_eq_iff.mpr rfl]
    exact nofun
  le_trans first second third below above := by
    cases lower : compare first second with
    | gt =>
        exact (below lower).elim
    | eq =>
        rw [compare_eq_iff.mp lower]
        exact above
    | lt =>
        cases upper : compare second third with
        | gt =>
            exact (above upper).elim
        | eq =>
            rw [← compare_eq_iff.mp upper, lower]
            exact nofun
        | lt =>
            rw [compare_trans lower upper]
            exact nofun
  lt_iff_le_not_ge first second := by
    rw [← compare_swap first second]
    cases compare first second <;> simp
  le_antisymm first second below above := by
    rw [← compare_swap first second] at above
    apply compare_eq_iff.mp
    cases outcome : compare first second with
    | lt => simp [outcome] at above
    | eq => rfl
    | gt => exact (below outcome).elim
  le_total first second := by
    rw [← compare_swap first second]
    cases compare first second <;> simp
  toDecidableLE first second :=
    inferInstanceAs (Decidable (compare first second ≠ .gt))
  toDecidableLT first second :=
    inferInstanceAs (Decidable (compare first second = .lt))
  toDecidableEq first second :=
    decidable_of_iff (compare first second = .eq) compare_eq_iff
  compare_eq_compareOfLessAndEq first second := by
    simp only [compareOfLessAndEq]
    cases outcome : compare first second with
    | lt => simp
    | eq => simp [compare_eq_iff.mp outcome]
    | gt =>
        have different : first ≠ second := by
          rintro rfl
          rw [compare_eq_iff.mpr rfl] at outcome
          cases outcome
        simp [different]

/-- The order's `≤` is the negation of `operator>`. -/
theorem le_iff_compare
    {first second : AtomTree} :
    first ≤ second ↔ compare first second ≠ .gt :=
  Iff.rfl

/-- The order's `<` is `operator<`. -/
theorem lt_iff_compare
    {first second : AtomTree} :
    first < second ↔ compare first second = .lt :=
  Iff.rfl

/-- What one operand contributes: its own children if it has the given tag. -/
def operandsOf (flattenTag : AtomTag) (operand : AtomTree) : List AtomTree :=
  if operand.tag = flattenTag then operand.children else [operand]

/-- `flatten_operands`: nested nodes of the tag are spliced, one level deep. -/
def flattenOperands
    (flattenTag : AtomTag)
    (operands : List AtomTree) :
    List AtomTree :=
  operands.flatMap (operandsOf flattenTag)

/-- The sorted children of a node made by `build_variadic`. -/
def variadicChildren
    (tag : AtomTag)
    (operands : List AtomTree) :
    List AtomTree :=
  (flattenOperands tag operands).insertionSort (· ≤ ·)

/-- The tree of `AtomStore::add`. -/
def mkAdd (terms : List AtomTree) : AtomTree :=
  .add (variadicChildren .add terms)

/-- The tree of `AtomStore::mul`. -/
def mkMul (factors : List AtomTree) : AtomTree :=
  .mul (variadicChildren .mul factors)

/-- Trees of arena slots: sums and products are flat and sorted at every level. -/
inductive Canonical : AtomTree → Prop where
  | num (value : ℚ) :
      Canonical (.num value)
  | var (symbol : Symbol) :
      Canonical (.var symbol)
  | add
      {terms : List AtomTree} :
      (∀ term ∈ terms, Canonical term) →
      (∀ term ∈ terms, term.tag ≠ .add) →
      terms.Pairwise (· ≤ ·) →
      Canonical (.add terms)
  | mul
      {factors : List AtomTree} :
      (∀ factor ∈ factors, Canonical factor) →
      (∀ factor ∈ factors, factor.tag ≠ .mul) →
      factors.Pairwise (· ≤ ·) →
      Canonical (.mul factors)
  | pow
      {base exponent : AtomTree} :
      Canonical base →
      Canonical exponent →
      Canonical (.pow base exponent)
  | func
      (head : Symbol)
      {arguments : List AtomTree} :
      (∀ argument ∈ arguments, Canonical argument) →
      Canonical (.func head arguments)

/-- The children of a canonical tree are canonical. -/
theorem Canonical.child
    {tree child : AtomTree}
    (canonical : tree.Canonical)
    (member : child ∈ tree.children) :
    child.Canonical := by
  cases canonical with
  | num | var => cases member
  | add all _ _ | mul all _ _ | func _ all => exact all child member
  | pow base exponent =>
      simp only [children, List.mem_cons, List.not_mem_nil, or_false] at member
      rcases member with rfl | rfl
      · exact base
      · exact exponent

/-- Canonical sums and products are flat and sorted. -/
theorem Canonical.flat_and_sorted
    {tree : AtomTree}
    (canonical : tree.Canonical)
    (variadic : tree.tag = .add ∨ tree.tag = .mul) :
    (∀ child ∈ tree.children, child.tag ≠ tree.tag) ∧
      tree.children.Pairwise (· ≤ ·) := by
  cases canonical with
  | num | var | pow | func =>
      rcases variadic with isAdd | isMul
      · cases isAdd
      · cases isMul
  | add _ flat sorted | mul _ flat sorted =>
      exact ⟨flat, sorted⟩

theorem perm_variadicChildren
    (tag : AtomTag)
    (operands : List AtomTree) :
    (variadicChildren tag operands).Perm (flattenOperands tag operands) :=
  List.perm_insertionSort _ _

theorem sorted_variadicChildren
    (tag : AtomTag)
    (operands : List AtomTree) :
    (variadicChildren tag operands).Pairwise (· ≤ ·) :=
  List.pairwise_insertionSort _ _

/-- Flattening canonical operands leaves no child to flatten. -/
theorem mem_flattenOperands
    {flattenTag : AtomTag}
    (variadic : flattenTag = .add ∨ flattenTag = .mul)
    {operands : List AtomTree}
    (canonical : ∀ operand ∈ operands, operand.Canonical)
    {child : AtomTree}
    (member : child ∈ flattenOperands flattenTag operands) :
    child.Canonical ∧ child.tag ≠ flattenTag := by
  simp only [flattenOperands, List.mem_flatMap, operandsOf] at member
  obtain ⟨operand, operandMember, childMember⟩ := member
  have operandCanonical := canonical operand operandMember
  split_ifs at childMember with sameTag
  · refine ⟨operandCanonical.child childMember, ?_⟩
    cases operandCanonical with
    | num | var | pow | func =>
        rcases variadic with rfl | rfl <;> cases sameTag
    | add _ flat _ | mul _ flat _ =>
        rw [← sameTag]
        exact flat child childMember
  · rw [List.mem_singleton.mp childMember]
    exact ⟨operandCanonical, sameTag⟩

/-- Sums built from canonical terms are canonical. -/
theorem canonical_mkAdd
    {terms : List AtomTree}
    (canonical : ∀ term ∈ terms, term.Canonical) :
    (mkAdd terms).Canonical := by
  have facts :
      ∀ child ∈ variadicChildren .add terms,
        child.Canonical ∧ child.tag ≠ .add :=
    fun child member =>
      mem_flattenOperands (Or.inl rfl) canonical
        ((perm_variadicChildren .add terms).mem_iff.mp member)
  exact .add (fun child member => (facts child member).1)
    (fun child member => (facts child member).2)
    (sorted_variadicChildren .add terms)

/-- Products built from canonical factors are canonical. -/
theorem canonical_mkMul
    {factors : List AtomTree}
    (canonical : ∀ factor ∈ factors, factor.Canonical) :
    (mkMul factors).Canonical := by
  have facts :
      ∀ child ∈ variadicChildren .mul factors,
        child.Canonical ∧ child.tag ≠ .mul :=
    fun child member =>
      mem_flattenOperands (Or.inr rfl) canonical
        ((perm_variadicChildren .mul factors).mem_iff.mp member)
  exact .mul (fun child member => (facts child member).1)
    (fun child member => (facts child member).2)
    (sorted_variadicChildren .mul factors)

/-- A property that nested nodes share with their children survives flattening. -/
theorem forall_variadicChildren_iff
    {tag : AtomTag}
    {property : AtomTree → Prop}
    (spliced :
      ∀ operand, operand.tag = tag →
        ((∀ child ∈ operand.children, property child) ↔ property operand))
    (operands : List AtomTree) :
    (∀ child ∈ variadicChildren tag operands, property child) ↔
      ∀ operand ∈ operands, property operand := by
  have own : ∀ operand,
      (∀ child ∈ operandsOf tag operand, property child) ↔ property operand := by
    intro operand
    rw [operandsOf]
    split_ifs with sameTag
    · exact spliced operand sameTag
    · exact List.forall_mem_singleton
  simp only [(perm_variadicChildren tag operands).mem_iff, flattenOperands,
    List.mem_flatMap]
  constructor
  · intro all operand member
    exact (own operand).mp fun child childMember => all child ⟨operand, member, childMember⟩
  · rintro all child ⟨operand, member, childMember⟩
    exact (own operand).mpr (all operand member) child childMember

/-- A product over nodes that have the product of their children survives flattening. -/
theorem prod_variadicChildren
    {M : Type*}
    [CommMonoid M]
    {tag : AtomTag}
    {value : AtomTree → M}
    (spliced :
      ∀ operand, operand.tag = tag →
        (operand.children.map value).prod = value operand)
    (operands : List AtomTree) :
    ((variadicChildren tag operands).map value).prod = (operands.map value).prod := by
  have own : ∀ operand, ((operandsOf tag operand).map value).prod = value operand := by
    intro operand
    rw [operandsOf]
    split_ifs with sameTag
    · exact spliced operand sameTag
    · rw [List.map_singleton, List.prod_singleton]
  rw [((perm_variadicChildren tag operands).map value).prod_eq, flattenOperands]
  induction operands with
  | nil =>
      rfl
  | cons operand rest inductionHypothesis =>
      rw [List.flatMap_cons, List.map_append, List.prod_append, own, inductionHypothesis,
        List.map_cons, List.prod_cons]

/-- The same for sums. -/
theorem sum_variadicChildren
    {M : Type*}
    [AddCommMonoid M]
    {tag : AtomTag}
    {value : AtomTree → M}
    (spliced :
      ∀ operand, operand.tag = tag →
        (operand.children.map value).sum = value operand)
    (operands : List AtomTree) :
    ((variadicChildren tag operands).map value).sum = (operands.map value).sum :=
  @prod_variadicChildren (Multiplicative M) _ tag value spliced operands

/-- Operands without the tag are kept as they are. -/
theorem flattenOperands_eq_self
    {flattenTag : AtomTag}
    {operands : List AtomTree}
    (flat : ∀ operand ∈ operands, operand.tag ≠ flattenTag) :
    flattenOperands flattenTag operands = operands := by
  induction operands with
  | nil =>
      rfl
  | cons operand rest inductionHypothesis =>
      have headFlat := flat operand (by simp)
      have restFlat :=
        inductionHypothesis fun later member => flat later (by simp [member])
      simp only [flattenOperands, List.flatMap_cons] at restFlat ⊢
      rw [restFlat]
      simp [operandsOf, headFlat]

/-- The children of a node depend on the multiset of flattened operands only. -/
theorem variadicChildren_congr
    {tag : AtomTag}
    {operands others : List AtomTree}
    (same : (flattenOperands tag operands).Perm (flattenOperands tag others)) :
    variadicChildren tag operands = variadicChildren tag others := by
  apply List.Perm.eq_of_pairwise'
    (sorted_variadicChildren tag operands) (sorted_variadicChildren tag others)
  exact (perm_variadicChildren tag operands).trans
    (same.trans (perm_variadicChildren tag others).symm)

/-- A nested node of the tag may be replaced by the operands it was built from. -/
theorem variadicChildren_splice
    {tag : AtomTag}
    {nested : AtomTree}
    {operands : List AtomTree}
    (spliced : operandsOf tag nested = variadicChildren tag operands)
    (before after : List AtomTree) :
    variadicChildren tag (before ++ nested :: after) =
      variadicChildren tag (before ++ (operands ++ after)) := by
  apply variadicChildren_congr
  simp only [flattenOperands, List.flatMap_append, List.flatMap_cons, spliced]
  exact List.Perm.append_left _
    (List.Perm.append_right _ (perm_variadicChildren tag operands))

/-- A sum inside a sum may be replaced by its terms. -/
theorem mkAdd_splice
    (before terms after : List AtomTree) :
    mkAdd (before ++ mkAdd terms :: after) =
      mkAdd (before ++ (terms ++ after)) := by
  have spliced : operandsOf .add (mkAdd terms) = variadicChildren .add terms :=
    if_pos rfl
  exact congrArg AtomTree.add (variadicChildren_splice spliced before after)

/-- A product inside a product may be replaced by its factors. -/
theorem mkMul_splice
    (before factors after : List AtomTree) :
    mkMul (before ++ mkMul factors :: after) =
      mkMul (before ++ (factors ++ after)) := by
  have spliced :
      operandsOf .mul (mkMul factors) = variadicChildren .mul factors :=
    if_pos rfl
  exact congrArg AtomTree.mul (variadicChildren_splice spliced before after)

/-- Rebuilding a canonical sum from its own children gives it back. -/
theorem mkAdd_children
    {terms : List AtomTree}
    (canonical : (AtomTree.add terms).Canonical) :
    mkAdd terms = .add terms := by
  cases canonical with
  | add _ flat sorted =>
      simp only [mkAdd, variadicChildren, flattenOperands_eq_self flat,
        List.Pairwise.insertionSort_eq sorted]

/-- Rebuilding a canonical product from its own children gives it back. -/
theorem mkMul_children
    {factors : List AtomTree}
    (canonical : (AtomTree.mul factors).Canonical) :
    mkMul factors = .mul factors := by
  cases canonical with
  | mul _ flat sorted =>
      simp only [mkMul, variadicChildren, flattenOperands_eq_self flat,
        List.Pairwise.insertionSort_eq sorted]

/-- A condition on nodes holds of a tree's root and of everything below it. -/
inductive Everywhere (condition : AtomTree → Prop) : AtomTree → Prop where
  | node
      {tree : AtomTree} :
      condition tree →
      (∀ child ∈ tree.children, Everywhere condition child) →
      Everywhere condition tree

theorem Everywhere.root
    {condition : AtomTree → Prop}
    {tree : AtomTree}
    (holds : tree.Everywhere condition) :
    condition tree := by
  cases holds with
  | node here _ =>
      exact here

theorem Everywhere.child
    {condition : AtomTree → Prop}
    {tree child : AtomTree}
    (holds : tree.Everywhere condition)
    (member : child ∈ tree.children) :
    child.Everywhere condition := by
  cases holds with
  | node _ below =>
      exact below child member

theorem everywhere_iff
    {condition : AtomTree → Prop}
    {tree : AtomTree} :
    tree.Everywhere condition ↔
      condition tree ∧ ∀ child ∈ tree.children, child.Everywhere condition := by
  constructor
  · intro holds
    exact ⟨holds.root, fun _ member => holds.child member⟩
  · intro parts
    exact .node parts.1 parts.2

theorem Everywhere.imp
    {condition weaker : AtomTree → Prop}
    (implies : ∀ tree, condition tree → weaker tree)
    {tree : AtomTree}
    (holds : tree.Everywhere condition) :
    tree.Everywhere weaker := by
  induction holds with
  | node here _ inductionHypothesis =>
      exact .node (implies _ here) inductionHypothesis

/-- The nodes inside a spliced operand list are those of the operands. -/
theorem everywhere_variadicChildren
    {condition : AtomTree → Prop}
    {tag : AtomTag}
    {operands : List AtomTree}
    (all : ∀ operand ∈ operands, operand.Everywhere condition) :
    ∀ child ∈ variadicChildren tag operands, child.Everywhere condition := by
  intro child member
  have spliced := (perm_variadicChildren tag operands).mem_iff.mp member
  simp only [flattenOperands, List.mem_flatMap, operandsOf] at spliced
  obtain ⟨operand, operandMember, childMember⟩ := spliced
  have holds := all operand operandMember
  split_ifs at childMember
  · exact holds.child childMember
  · rwa [List.mem_singleton.mp childMember]

end AtomTree

end AtomCore
