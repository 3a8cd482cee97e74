import Mathlib.Algebra.Order.BigOperators.Group.List
import Stocas.Atom.Gathering

namespace AtomCore

namespace AtomTree

/-!
# Atoms whose collections never have to be repeated

Whether a collection has to be repeated depends on what its operands become.  `Tidy` is a
condition on the atom itself: its operands are normal and gather, or their shape already
tells that they become operands which no builder splices.
-/

/-! What an operand becomes, from its shape. -/

section Shapes

/-- It stays a variable, a call or a power. -/
inductive Rigid : AtomTree → Prop where
  | var (symbol) :
      Rigid (.var symbol)
  | func (head arguments) :
      Rigid (.func head arguments)
  | power (base) {exponent : ℚ} :
      exponent ≠ 0 →
      exponent ≠ 1 →
      Rigid (.pow base (.num exponent))
  | pow (base) {exponent : AtomTree} :
      Rigid exponent →
      Rigid (.pow base exponent)

/-- It stays a variable, a call or a power without a number for exponent. -/
inductive Solid : AtomTree → Prop where
  | var (symbol) :
      Solid (.var symbol)
  | func (head arguments) :
      Solid (.func head arguments)
  | pow (base) {exponent : AtomTree} :
      Rigid exponent →
      Solid (.pow base exponent)

/-- It stays rigid or becomes 1. -/
inductive Powered : AtomTree → Prop where
  | rigid {tree : AtomTree} :
      Rigid tree →
      Powered tree
  | pow {base : AtomTree} (exponent) :
      Solid base →
      Powered (.pow base exponent)

/-- It is a base, or a power of it by this number. -/
inductive Raised (base : AtomTree) : ℚ → AtomTree → Prop where
  | one :
      Raised base 1 base
  | pow (amount) :
      Raised base amount (.pow base (.num amount))

/-- It is a product of one factor with numbers that make this coefficient. -/
inductive Multiple (tree : AtomTree) : ℚ → AtomTree → Prop where
  | mul {factors : List AtomTree} {values : List ℚ} :
      factors.Perm (values.map .num ++ [tree]) →
      Multiple tree values.prod (.mul factors)

/-- It becomes a number, or a multiple of a variable, call or power. -/
inductive Simple : AtomTree → Prop where
  | num (value) :
      Simple (.num value)
  | powered {tree : AtomTree} :
      Powered tree →
      Simple tree
  | multiple {coefficient : ℚ} {tree product : AtomTree} :
      Powered tree →
      Multiple tree coefficient product →
      Simple product
  | like {base : AtomTree} {factors : List AtomTree} :
      Solid base →
      (∀ factor ∈ factors,
        (∃ value, factor = .num value) ∨ ∃ amount, Raised base amount factor) →
      Simple (.mul factors)

/-- A base, or a power of one, that is not spliced into a product. -/
inductive SolidFactor : AtomTree → Prop where
  | solid {base : AtomTree} :
      Solid base →
      SolidFactor base
  | pow {base : AtomTree} (exponent) :
      Solid base →
      SolidFactor (.pow base exponent)

/-- Two keys remain, so that the node is not replaced by a single operand. -/
def Collector.Stays (collector : Collector) (operands : List AtomTree) : Prop :=
  ∃ first ∈ symbolic operands, ∃ second ∈ symbolic operands,
    (collector.split first).1 ≠ (collector.split second).1 ∧
      collector.total operands (collector.split first).1 ≠ 0 ∧
      collector.total operands (collector.split second).1 ≠ 0

/-- It stays a sum. -/
inductive StaysSum : AtomTree → Prop where
  | normal {terms : List AtomTree} :
      (AtomTree.add terms).Normal →
      StaysSum (.add terms)
  | gathered {terms : List AtomTree} :
      SumsUp terms →
      sums.Stays terms →
      StaysSum (.add terms)

/-- A base that becomes neither a number, nor a product, nor a power by a number. -/
inductive LooseBase : AtomTree → Prop where
  | solid {base : AtomTree} :
      Solid base →
      LooseBase base
  | normal {base : AtomTree} :
      base.Normal →
      products.Plain base →
      LooseBase base
  | sum {base : AtomTree} :
      StaysSum base →
      LooseBase base

/-- A factor that becomes a number or has such a base. -/
inductive LooseFactor : AtomTree → Prop where
  | num (value) :
      LooseFactor (.num value)
  | base {base : AtomTree} :
      LooseBase base →
      LooseFactor base
  | pow {base : AtomTree} (exponent) :
      LooseBase base →
      LooseFactor (.pow base exponent)

/-- A term that becomes neither a sum, nor a multiple of one, nor a monomial with a
coefficient. -/
inductive LooseTerm : AtomTree → Prop where
  | simple {tree : AtomTree} :
      Simple tree →
      LooseTerm tree
  | product {factors : List AtomTree} :
      (∀ factor ∈ factors, SolidFactor factor) →
      LooseTerm (.mul factors)
  | gathered {factors : List AtomTree} :
      products.Gathers factors →
      numbers factors = [] →
      products.Stays factors →
      LooseTerm (.mul factors)
  | raised {factors : List AtomTree} :
      2 ≤ factors.length →
      (∀ factor ∈ factors, ∃ base amount,
        LooseBase base ∧ 1 ≤ amount ∧ Raised base amount factor) →
      LooseTerm (.mul factors)
  | multiplied {factors : List AtomTree} (symbol) :
      (∀ factor ∈ factors, ∃ base amount,
        (Solid base ∨ StaysSum base) ∧ Raised base amount factor) →
      products.total factors (.var symbol) ≠ 0 →
      LooseTerm (.mul factors)

/-- A multiple of a sum by one of these numbers. -/
def StrayTerm (amounts : AddSubsemigroup ℚ) (term : AtomTree) : Prop :=
  ∃ coefficient ∈ amounts, ∃ sum, StaysSum sum ∧ Multiple sum coefficient term

/-- A power by one of these numbers. -/
def StrayFactor (amounts : AddSubsemigroup ℚ) (factor : AtomTree) : Prop :=
  ∃ exponent ∈ amounts, ∃ base, factor = .pow base (.num exponent)

/-- The key of a symbolic operand is plain, or its amount is one of these numbers. -/
def Collector.Within
    (collector : Collector)
    (amounts : AddSubsemigroup ℚ)
    (operand : AtomTree) : Prop :=
  operand.numValue? = none →
    collector.Plain (collector.split operand).1 ∨ (collector.split operand).2 ∈ amounts

end Shapes

section Outcomes

/-- A variable, a call, or a power that is not left to be folded. -/
structure Kernel (tree : AtomTree) : Prop where
  tag : tree.tag = .var ∨ tree.tag = .func ∨ tree.tag = .pow
  amount : (splitPower tree).2 ≠ 0
  unit : (splitPower tree).2 = 1 → (splitPower tree).1 = tree

theorem Kernel.isSymbolic
    {tree : AtomTree}
    (kernel : Kernel tree) :
    tree.numValue? = none := by
  rcases kernel.tag with isTag | isTag | isTag <;> cases tree <;> first | rfl | cases isTag

theorem Kernel.tag_ne
    {tree : AtomTree}
    (kernel : Kernel tree) :
    tree.tag ≠ .add ∧ tree.tag ≠ .mul := by
  rcases kernel.tag with isTag | isTag | isTag <;> rw [isTag] <;> exact ⟨nofun, nofun⟩

/-- The term of a kernel is the kernel. -/
theorem Kernel.own
    {tree : AtomTree}
    (kernel : Kernel tree) :
    splitCoefficient tree = (tree, 1) := by
  apply splitCoefficient_eq_self
  rintro coefficient rest rfl
  exact kernel.tag_ne.2 rfl

theorem kernel_of_own
    {tree : AtomTree}
    (tag : tree.tag = .var ∨ tree.tag = .func ∨ tree.tag = .pow)
    (own : splitPower tree = (tree, 1)) :
    Kernel tree := by
  refine ⟨tag, ?_, fun _ => ?_⟩
  · rw [own]
    exact one_ne_zero
  · rw [own]

/-- What a power becomes: 1, its base, or a power that is kept. -/
theorem normalizePow_cases
    (base exponent : AtomTree) :
    normalizePow base exponent = .num 1 ∧ exponent = .num 0 ∨
      normalizePow base exponent = base ∧ exponent = .num 1 ∨
      normalizePow base exponent = .pow base exponent ∧ Kernel (.pow base exponent) := by
  cases isNumber : exponent.numValue? with
  | none =>
      have own : splitPower (.pow base exponent) = (.pow base exponent, 1) := by
        apply splitPower_eq_self
        intro other value same
        cases same
        cases isNumber
      refine Or.inr (Or.inr ⟨?_, kernel_of_own (Or.inr (Or.inr rfl)) own⟩)
      simp only [normalizePow, isNumber]
  | some value =>
      rw [eq_num_of_numValue? isNumber]
      simp only [normalizePow, numValue?]
      split_ifs with isZero isOne
      · exact Or.inl ⟨rfl, by rw [isZero]⟩
      · exact Or.inr (Or.inl ⟨rfl, by rw [isOne]⟩)
      · exact Or.inr
          (Or.inr ⟨rfl, Or.inr (Or.inr rfl), isZero, fun same => absurd same isOne⟩)

theorem Rigid.kernel
    {tree : AtomTree}
    (rigid : Rigid tree) :
    Kernel tree.normalize := by
  induction rigid with
  | var symbol =>
      exact kernel_of_own (Or.inl rfl) rfl
  | func head arguments =>
      exact kernel_of_own (Or.inr (Or.inl rfl)) rfl
  | power base notZero notOne =>
      rw [normalize, normalize]
      rcases normalizePow_cases base.normalize (.num _) with
        ⟨-, same⟩ | ⟨-, same⟩ | ⟨kept, kernel⟩
      · exact absurd (num.inj same) notZero
      · exact absurd (num.inj same) notOne
      · rwa [kept]
  | @pow base exponent _ inductionHypothesis =>
      rw [normalize]
      rcases normalizePow_cases base.normalize exponent.normalize with
        ⟨-, same⟩ | ⟨-, same⟩ | ⟨kept, kernel⟩
      · have isSymbolic := inductionHypothesis.isSymbolic
        rw [same] at isSymbolic
        cases isSymbolic
      · have isSymbolic := inductionHypothesis.isSymbolic
        rw [same] at isSymbolic
        cases isSymbolic
      · rwa [kept]

theorem Solid.rigid
    {tree : AtomTree}
    (solid : Solid tree) :
    Rigid tree := by
  cases solid with
  | var symbol => exact .var symbol
  | func head arguments => exact .func head arguments
  | pow base rigid => exact .pow base rigid

/-- A solid base is its own base. -/
theorem Solid.own
    {tree : AtomTree}
    (solid : Solid tree) :
    splitPower tree.normalize = (tree.normalize, 1) := by
  cases solid with
  | var symbol =>
      rfl
  | func head arguments =>
      rfl
  | @pow base exponent rigid =>
      have isSymbolic := rigid.kernel.isSymbolic
      rw [normalize]
      rcases normalizePow_cases base.normalize exponent.normalize with
        ⟨-, same⟩ | ⟨-, same⟩ | ⟨kept, -⟩
      · rw [same] at isSymbolic
        cases isSymbolic
      · rw [same] at isSymbolic
        cases isSymbolic
      · rw [kept]
        apply splitPower_eq_self
        intro other value same
        rw [(pow.inj same).2] at isSymbolic
        cases isSymbolic

theorem Powered.kernel
    {tree : AtomTree}
    (powered : Powered tree) :
    tree.normalize = .num 1 ∨ Kernel tree.normalize := by
  cases powered with
  | rigid rigid =>
      exact Or.inr rigid.kernel
  | @pow base exponent solid =>
      rw [normalize]
      rcases normalizePow_cases base.normalize exponent.normalize with
        ⟨isOne, -⟩ | ⟨isBase, -⟩ | ⟨kept, kernel⟩
      · exact Or.inl isOne
      · rw [isBase]
        exact Or.inr solid.rigid.kernel
      · rw [kept]
        exact Or.inr kernel

/-- A solid factor becomes 1 or a power of a solid base. -/
theorem SolidFactor.kernel
    {tree : AtomTree}
    (solid : SolidFactor tree) :
    tree.normalize = .num 1 ∨
      tree.normalize.numValue? = none ∧ Kernel (splitPower tree.normalize).1 := by
  cases solid with
  | solid solid =>
      right
      rw [solid.own]
      exact ⟨solid.rigid.kernel.isSymbolic, solid.rigid.kernel⟩
  | @pow base exponent solid =>
      rw [normalize]
      rcases normalizePow_cases base.normalize exponent.normalize with
        ⟨isOne, -⟩ | ⟨isBase, -⟩ | ⟨kept, kernel⟩
      · exact Or.inl isOne
      · right
        rw [isBase, solid.own]
        exact ⟨solid.rigid.kernel.isSymbolic, solid.rigid.kernel⟩
      · right
        rw [kept]
        refine ⟨rfl, ?_⟩
        rw [splitPower.eq_def]
        split
        · rename_i same
          rw [← (pow.inj same).1]
          exact solid.rigid.kernel
        · exact kernel

theorem Raised.base_canonical
    {base factor : AtomTree}
    {amount : ℚ}
    (raised : Raised base amount factor)
    (canonical : factor.Canonical) :
    base.Canonical := by
  cases raised with
  | one => exact canonical
  | pow => exact canonical.child (by simp [children])

/-- A numeric power becomes 1, or splits into its base and its exponent. -/
theorem Raised.outcome
    {base factor : AtomTree}
    {amount : ℚ}
    (raised : Raised base amount factor)
    (plain : products.Plain base.normalize) :
    factor.normalize = .num 1 ∧ amount = 0 ∨
      factor.normalize.numValue? = none ∧
        splitPower factor.normalize = (base.normalize, amount) := by
  cases raised with
  | one =>
      exact Or.inr ⟨plain.isSymbolic, plain.own⟩
  | pow =>
      rw [normalize, normalize]
      rcases normalizePow_cases base.normalize (.num amount) with
        ⟨isOne, same⟩ | ⟨isBase, same⟩ | ⟨kept, -⟩
      · exact Or.inl ⟨isOne, num.inj same⟩
      · rw [isBase, num.inj same]
        exact Or.inr ⟨plain.isSymbolic, plain.own⟩
      · rw [kept]
        exact Or.inr ⟨rfl, rfl⟩

end Outcomes

section Terms

/-- An operand that a sum neither splices nor takes for a monomial with a coefficient. -/
structure OrdinaryTerm (tree : AtomTree) : Prop where
  plain : tree.numValue? = none → sums.Plain (splitCoefficient tree).1
  short : ¬LongMonomial tree

theorem ordinaryTerm_num
    (value : ℚ) :
    OrdinaryTerm (.num value) where
  plain := nofun
  short := fun long => by cases long.1

theorem Kernel.ordinaryTerm
    {tree : AtomTree}
    (kernel : Kernel tree) :
    OrdinaryTerm tree where
  plain := by
    intro isSymbolic
    rw [kernel.own]
    exact ⟨isSymbolic, kernel.tag_ne.1, kernel.own⟩
  short := fun long => kernel.tag_ne.2 long.1

theorem NumberFree.ordinaryTerm
    {tree : AtomTree}
    (free : NumberFree tree) :
    OrdinaryTerm tree where
  plain := by
    intro isSymbolic
    have kept : tree.tag ≠ .add := by
      rw [free.1]
      exact nofun
    rw [free.own]
    exact ⟨isSymbolic, kept, free.own⟩
  short := fun long => long.2.1 free.2

/-- A kernel is rebuilt from its base and exponent. -/
theorem Kernel.rebuilt
    {tree : AtomTree}
    (kernel : Kernel tree) :
    products.rebuilt (splitPower tree) = [tree] := by
  rw [Collector.rebuilt, if_neg kernel.amount]
  split_ifs with isOne
  · rw [kernel.unit isOne]
  · have split : splitPower tree = (tree, 1) ∨
        ∃ base exponent, tree = .pow base (.num exponent) ∧
          splitPower tree = (base, exponent) := by
      rw [splitPower.eq_def]
      split
      · exact Or.inr ⟨_, _, rfl, rfl⟩
      · exact Or.inl rfl
    rcases split with own | ⟨base, exponent, rfl, split⟩
    · exact absurd (congrArg Prod.snd own) isOne
    · rw [split]
      rfl

/-- What is rebuilt from a kernel and a number is one. -/
theorem Kernel.of_rebuilt
    {key piece : AtomTree}
    {amount : ℚ}
    (kernel : Kernel key)
    (member : piece ∈ products.rebuilt (key, amount)) :
    Kernel piece := by
  rcases mem_rebuilt.mp member with ⟨-, rfl⟩ | ⟨notZero, notOne, rfl⟩
  · exact kernel
  · exact ⟨Or.inr (Or.inr rfl), notZero, fun isOne => absurd isOne notOne⟩

/-- The number that is totalled. -/
theorem Collector.collect_constant
    {collector : Collector}
    {rest : List AtomTree}
    {entries entriesAfter : Entries}
    {constant constantAfter : ℚ}
    (collects :
      collector.collect rest entries constant = .ok (entriesAfter, constantAfter)) :
    constantAfter = (numbers rest).foldl collector.combine constant := by
  induction rest generalizing entries constant with
  | nil =>
      cases collects
      rfl
  | cons operand rest inductionHypothesis =>
      simp only [Collector.collect] at collects
      cases isNumber : operand.numValue? with
      | some value =>
          rw [isNumber] at collects
          simp only at collects
          split_ifs at collects
          rw [eq_num_of_numValue? isNumber, numbers_num_cons]
          exact inductionHypothesis collects
      | none =>
          rw [isNumber] at collects
          rw [← List.singleton_append, AtomTree.numbers_append, numbers_singleton isNumber]
          exact inductionHypothesis collects

theorem collect_product
    {operands : List AtomTree}
    {entries : Entries}
    {constant : ℚ}
    (collects : products.collect operands [] products.neutral = .ok (entries, constant)) :
    constant = (numbers operands).prod := by
  rw [Collector.collect_constant collects, List.prod_eq_foldl]
  rfl

/-- A product of powers of one base becomes a number or a multiple of its only piece. -/
theorem finish_single
    {operands : List AtomTree}
    {key : AtomTree}
    (single : ∀ operand ∈ symbolic operands, (splitPower operand).1 = key)
    (kept :
      ∀ piece ∈ products.rebuilt (key, products.total operands key),
        piece.numValue? = none ∧ piece.tag ≠ .mul) :
    (∃ value, products.finish operands = .num value) ∨
      ∃ piece ∈ products.rebuilt (key, products.total operands key),
        products.finish operands =
          if (numbers operands).prod = 1 then piece
          else .mul [.num (numbers operands).prod, piece] := by
  rw [Collector.finish]
  cases collects : products.collect operands [] products.neutral with
  | error value =>
      exact Or.inl ⟨value, rfl⟩
  | ok collection =>
      obtain ⟨entries, constant⟩ := collection
      have tallied := Collector.tallied_nil.collect collects
      rw [List.nil_append] at tallied
      rw [← collect_product collects]
      have isKey : ∀ entry ∈ entries, entry = (key, products.total operands key) := by
        intro entry member
        obtain ⟨operand, operandMember, same⟩ := tallied.key entry member
        have isSame : entry.1 = key := same.symm.trans (single operand operandMember)
        rw [← isSame, ← tallied.total entry member]
      have pieces : entries.flatMap products.rebuilt = [] ∨
          ∃ piece ∈ products.rebuilt (key, products.total operands key),
            entries.flatMap products.rebuilt = [piece] := by
        rcases entries with _ | ⟨first, _ | ⟨second, rest⟩⟩
        · exact Or.inl rfl
        · rw [List.flatMap_cons, List.flatMap_nil, List.append_nil,
            isKey first List.mem_cons_self]
          rw [Collector.rebuilt]
          split_ifs
          · exact Or.inl rfl
          · exact Or.inr ⟨_, List.mem_singleton_self _, rfl⟩
          · exact Or.inr ⟨_, List.mem_singleton_self _, rfl⟩
        · have different := (List.pairwise_cons.mp tallied.sorted).1 second List.mem_cons_self
          rw [isKey first List.mem_cons_self,
            isKey second (List.mem_cons_of_mem _ List.mem_cons_self)] at different
          exact absurd different (lt_irrefl _)
      simp only [Collector.collected]
      rcases pieces with none | ⟨piece, member, only⟩
      · rw [none, if_pos (Or.inr rfl)]
        exact Or.inl ⟨constant, rfl⟩
      · right
        refine ⟨piece, member, ?_⟩
        rw [only]
        by_cases isOne : constant = 1
        · have idle : ¬(constant ≠ products.neutral ∨ [piece] = []) :=
            not_or.mpr ⟨not_not.mpr isOne, List.cons_ne_nil _ _⟩
          rw [if_neg idle, if_pos isOne]
          rfl
        · have matters : constant ≠ products.neutral := isOne
          rw [if_pos (Or.inl matters), if_neg isOne,
            ← rebuild_of_ne_mul constant (kept piece member).1 (kept piece member).2]
          exact lawful_products.build_perm (List.Perm.swap _ _ _)

/-- Numbers are multiplied. -/
theorem finish_numbers
    {operands : List AtomTree}
    (noSymbols : symbolic operands = []) :
    ∃ value, products.finish operands = .num value := by
  have none : products.rebuilt (.num 0, products.total operands (.num 0)) = [] := by
    rw [Collector.total, noSymbols]
    rfl
  have single : ∀ operand ∈ symbolic operands, (splitPower operand).1 = .num 0 := by
    rw [noSymbols]
    exact List.forall_mem_nil _
  have noPieces : ∀ piece ∈ products.rebuilt (.num 0, products.total operands (.num 0)),
      piece.numValue? = Option.none ∧ piece.tag ≠ AtomTag.mul := by
    rw [none]
    exact List.forall_mem_nil _
  rcases finish_single single noPieces with isNumber | ⟨piece, member, -⟩
  · exact isNumber
  · rw [none] at member
    cases member

theorem symbolic_nums
    (values : List ℚ) :
    symbolic (values.map .num) = [] := by
  induction values with
  | nil => rfl
  | cons value rest inductionHypothesis => rwa [List.map_cons, symbolic_num_cons]

theorem numbers_nums
    (values : List ℚ) :
    numbers (values.map .num) = values := by
  induction values with
  | nil => rfl
  | cons value rest inductionHypothesis =>
      rw [List.map_cons, numbers_num_cons, inductionHypothesis]

/-- A multiple becomes a number or a multiple of what its factor becomes. -/
theorem Multiple.outcome
    {tree product : AtomTree}
    {coefficient : ℚ}
    (multiple : Multiple tree coefficient product)
    (isSymbolic : tree.normalize.numValue? = none)
    (notProduct : tree.normalize.tag ≠ .mul)
    (rebuilt : products.rebuilt (splitPower tree.normalize) = [tree.normalize]) :
    (∃ value, product.normalize = .num value) ∨
      product.normalize =
        if coefficient = 1 then tree.normalize
        else .mul [.num coefficient, tree.normalize] := by
  obtain ⟨same⟩ := multiple
  rename_i factors values
  rw [normalize, normalizeMul, normalizeAll_eq_map]
  have mapped := same.map normalize
  rw [List.map_append, List.map_map, List.map_singleton,
    show normalize ∘ AtomTree.num = AtomTree.num from rfl] at mapped
  have onlySymbol : symbolic (factors.map normalize) = [tree.normalize] := by
    have symbols := mapped.filter fun operand => operand.numValue? = none
    rw [← symbolic, ← symbolic, symbolic_append, symbolic_nums, List.nil_append] at symbols
    rw [← List.perm_singleton]
    simpa [symbolic, isSymbolic] using symbols
  have product : (numbers (factors.map normalize)).prod = values.prod := by
    apply List.Perm.prod_eq
    have amounts := mapped.filterMap numValue?
    rwa [← numbers, ← numbers, AtomTree.numbers_append, numbers_nums,
      numbers_singleton isSymbolic, List.append_nil] at amounts
  have total :
      products.total (factors.map normalize) (splitPower tree.normalize).1 =
        (splitPower tree.normalize).2 := by
    rw [Collector.total_of_perm mapped, Collector.total_of_append,
      Collector.total_of_singleton isSymbolic, Collector.total, symbolic_nums]
    exact (zero_add _).trans (if_pos rfl)
  have pieces :
      products.rebuilt ((splitPower tree.normalize).1,
        products.total (factors.map normalize) (splitPower tree.normalize).1) =
        [tree.normalize] := by
    rw [total]
    exact rebuilt
  have single : ∀ operand ∈ symbolic (factors.map normalize),
      (splitPower operand).1 = (splitPower tree.normalize).1 := by
    rw [onlySymbol]
    intro operand member
    rw [List.mem_singleton.mp member]
  rcases finish_single single (by
      rw [pieces]
      intro piece member
      rw [List.mem_singleton.mp member]
      exact ⟨isSymbolic, notProduct⟩) with isNumber | ⟨piece, member, finished⟩
  · exact Or.inl isNumber
  · rw [pieces] at member
    rw [finished, List.mem_singleton.mp member, product]
    exact Or.inr rfl

/-- A number or a multiple of a kernel is an ordinary term, and not one of several factors. -/
theorem ordinaryTerm_of_multiple
    {outcome : AtomTree}
    (simple :
      (∃ value, outcome = .num value) ∨
        ∃ coefficient piece, Kernel piece ∧
          outcome = if coefficient = 1 then piece else .mul [.num coefficient, piece]) :
    OrdinaryTerm outcome ∧
      (outcome.numValue? = none → (splitCoefficient outcome).1.tag ≠ .mul) := by
  rcases simple with ⟨value, rfl⟩ | ⟨coefficient, piece, kernel, rfl⟩
  · exact ⟨ordinaryTerm_num value, nofun⟩
  split_ifs with isUnit
  · refine ⟨kernel.ordinaryTerm, fun _ => ?_⟩
    rw [kernel.own]
    exact kernel.tag_ne.2
  · have split :
        splitCoefficient (.mul [.num coefficient, piece]) = (piece, coefficient) := rfl
    rw [split]
    refine ⟨⟨fun _ => ?_, ?_⟩, fun _ => kernel.tag_ne.2⟩
    · rw [split]
      exact ⟨kernel.isSymbolic, kernel.tag_ne.1, kernel.own⟩
    · intro long
      exact isUnit (congrArg Prod.snd (split.symm.trans long.2.2))

/-- A simple term becomes an ordinary one, and not a product of several factors. -/
theorem Simple.ordinaryTerm
    {tree : AtomTree}
    (simple : Simple tree) :
    OrdinaryTerm tree.normalize ∧
      (tree.normalize.numValue? = none → (splitCoefficient tree.normalize).1.tag ≠ .mul) := by
  apply ordinaryTerm_of_multiple
  cases simple with
  | num value =>
      exact Or.inl ⟨value, rfl⟩
  | powered powered =>
      rcases powered.kernel with isOne | kernel
      · exact Or.inl ⟨1, isOne⟩
      · exact Or.inr ⟨1, tree.normalize, kernel, (if_pos rfl).symm⟩
  | @multiple coefficient factor _ powered multiple =>
      rcases powered.kernel with isOne | kernel
      · obtain ⟨same⟩ := multiple
        rename_i factors values
        left
        rw [normalize, normalizeMul, normalizeAll_eq_map]
        apply finish_numbers
        rw [symbolic, List.filter_eq_nil_iff]
        intro operand member
        obtain ⟨original, originalMember, rfl⟩ := List.mem_map.mp member
        rcases List.mem_append.mp (same.mem_iff.mp originalMember) with number | other
        · obtain ⟨value, -, rfl⟩ := List.mem_map.mp number
          rintro ⟨⟩
        · rw [List.mem_singleton.mp other, isOne]
          rintro ⟨⟩
      · rcases multiple.outcome kernel.isSymbolic kernel.tag_ne.2 kernel.rebuilt with
          isNumber | isMultiple
        · exact Or.inl isNumber
        · exact Or.inr ⟨coefficient, _, kernel, isMultiple⟩
  | @like base factors solid powers =>
      have kernel := solid.rigid.kernel
      have plain : products.Plain base.normalize :=
        ⟨kernel.isSymbolic, kernel.tag_ne.2, solid.own⟩
      rw [normalize, normalizeMul, normalizeAll_eq_map]
      have single : ∀ operand ∈ symbolic (factors.map normalize),
          (splitPower operand).1 = base.normalize := by
        intro operand member
        obtain ⟨isOperand, isSymbolic⟩ := List.mem_filter.mp member
        obtain ⟨factor, factorMember, rfl⟩ := List.mem_map.mp isOperand
        rcases powers factor factorMember with ⟨value, rfl⟩ | ⟨amount, raised⟩
        · cases isSymbolic
        · rcases raised.outcome plain with ⟨isOne, -⟩ | ⟨-, split⟩
          · rw [isOne] at isSymbolic
            cases isSymbolic
          · rw [split]
      rcases finish_single single fun piece member =>
          ⟨(kernel.of_rebuilt member).isSymbolic, (kernel.of_rebuilt member).tag_ne.2⟩ with
        isNumber | ⟨piece, member, isMultiple⟩
      · exact Or.inl isNumber
      · exact Or.inr ⟨_, piece, kernel.of_rebuilt member, isMultiple⟩

end Terms

section Products

variable {collector : Collector} {operands : List AtomTree} {entries : Entries}

/-- Two keys with totals make two pieces. -/
theorem Collector.Stays.two_le
    (stays : collector.Stays operands)
    (tallied : collector.Tallied operands entries) :
    2 ≤ (entries.flatMap collector.rebuilt).length := by
  obtain ⟨first, firstMember, second, secondMember, different, firstTotal, secondTotal⟩ :=
    stays
  obtain ⟨entry, member, key⟩ := tallied.entered first firstMember
  obtain ⟨other, otherMember, otherKey⟩ := tallied.entered second secondMember
  have apart : other ≠ entry := by
    rintro rfl
    exact different (key.symm.trans otherKey)
  have single : ∀ {given : AtomTree × ℚ}, given.2 ≠ 0 →
      (collector.rebuilt given).length = 1 := by
    intro given notZero
    rw [Collector.rebuilt, if_neg notZero]
    split_ifs <;> rfl
  have firstSingle : (collector.rebuilt entry).length = 1 :=
    single (by rwa [tallied.total entry member, key])
  have secondSingle : (collector.rebuilt other).length = 1 :=
    single (by rwa [tallied.total other otherMember, otherKey])
  have later : other ∈ entries.erase entry := (List.mem_erase_of_ne apart).mpr otherMember
  have pieces := (((List.perm_cons_erase member).trans
    ((List.perm_cons_erase later).cons entry)).flatMap_right collector.rebuilt).length_eq
  rw [List.flatMap_cons, List.flatMap_cons, List.length_append, List.length_append,
    firstSingle, secondSingle] at pieces
  omega

/-- A product without numbers is an ordinary term, if a single piece is. -/
theorem ordinaryTerm_finish
    (ones : ∀ value ∈ numbers operands, value = 1)
    {constant : ℚ}
    (collects : products.collect operands [] products.neutral = .ok (entries, constant))
    (pieces :
      ∀ piece ∈ entries.flatMap products.rebuilt,
        piece.numValue? = none ∧ piece.tag ≠ .mul)
    (alone : ∀ only, entries.flatMap products.rebuilt = [only] → OrdinaryTerm only) :
    OrdinaryTerm (products.finish operands) := by
  have isOne : constant = products.neutral := by
    rw [Collector.collect_constant collects]
    clear collects
    generalize numbers operands = values at ones
    induction values with
    | nil =>
        rfl
    | cons value rest inductionHypothesis =>
        have idle : products.combine products.neutral 1 = products.neutral := mul_one _
        rw [List.foldl_cons, ones value List.mem_cons_self, idle]
        exact inductionHypothesis fun other member =>
          ones other (List.mem_cons_of_mem _ member)
  rw [Collector.finish, collects]
  simp only [Collector.collected, isOne]
  generalize entries.flatMap products.rebuilt = given at pieces alone
  rcases given with _ | ⟨first, _ | ⟨second, rest⟩⟩
  · rw [if_pos (Or.inr rfl)]
    exact ordinaryTerm_num 1
  · rw [if_neg (by simp)]
    exact alone first rfl
  · rw [if_neg (by simp), assemble_of_two_le (by simp)]
    have flat :
        flattenOperands products.tag (first :: second :: rest) = first :: second :: rest :=
      flattenOperands_eq_self fun piece member => (pieces piece member).2
    have children := perm_variadicChildren products.tag (first :: second :: rest)
    rw [flat] at children
    have noNumbers : numbers (first :: second :: rest) = [] :=
      List.filterMap_eq_nil_iff.mpr fun piece member => (pieces piece member).1
    apply NumberFree.ordinaryTerm
    refine ⟨rfl, ?_⟩
    have same := children.filterMap numValue?
    rw [show (first :: second :: rest).filterMap numValue? = [] from noNumbers] at same
    exact List.perm_nil.mp same

/-- Normal operands are left alone. -/
theorem map_normalize_of_normal
    (canonical : ∀ operand ∈ operands, operand.Canonical)
    (normal : ∀ operand ∈ operands, operand.Normal) :
    operands.map normalize = operands := by
  have same : ∀ operand ∈ operands, operand.normalize = id operand :=
    fun operand member =>
      (normalize_eq_self_iff (canonical operand member)).mpr (normal operand member)
  rw [List.map_congr_left same, List.map_id]

/-- The pieces of operands that are 1 or have kept bases are kept bases and their powers. -/
theorem collect_pieces
    {isPiece : AtomTree → Prop}
    (powers :
      ∀ base exponent, exponent ≠ 0 → exponent ≠ 1 → isPiece (.pow base (.num exponent)))
    (outcome :
      ∀ operand ∈ operands, operand = .num 1 ∨
        operand.numValue? = none ∧ isPiece (splitPower operand).1) :
    ∃ entries constant,
      products.collect operands [] products.neutral = .ok (entries, constant) ∧
        products.Tallied operands entries ∧
        (∀ value ∈ numbers operands, value = 1) ∧
        ∀ piece ∈ entries.flatMap products.rebuilt, isPiece piece := by
  have ones : ∀ value ∈ numbers operands, value = 1 := by
    intro value member
    obtain ⟨operand, operandMember, isValue⟩ := List.mem_filterMap.mp member
    rcases outcome operand operandMember with rfl | ⟨isSymbolic, -⟩
    · exact (Option.some.inj isValue).symm
    · rw [isSymbolic] at isValue
      cases isValue
  have ordinary : ∀ value ∈ numbers operands, products.absorbing ≠ some value := by
    intro value member same
    rw [ones value member] at same
    exact zero_ne_one (Option.some.inj same)
  obtain ⟨entries, constant, collects⟩ := exists_collect ordinary [] products.neutral
  have tallied := Collector.tallied_nil.collect collects
  rw [List.nil_append] at tallied
  refine ⟨entries, constant, collects, tallied, ones, ?_⟩
  intro piece member
  obtain ⟨entry, entryMember, pieceMember⟩ := List.mem_flatMap.mp member
  rcases mem_rebuilt.mp pieceMember with ⟨-, rfl⟩ | ⟨notZero, notOne, rfl⟩
  · obtain ⟨operand, operandMember, same⟩ := tallied.key entry entryMember
    obtain ⟨isOperand, isSymbolic⟩ := List.mem_filter.mp operandMember
    rcases outcome operand isOperand with rfl | ⟨-, kept⟩
    · cases isSymbolic
    · rwa [← same]
  · exact powers entry.1 entry.2 notZero notOne

/-- A product of solid factors becomes an ordinary term. -/
theorem ordinaryTerm_of_solid
    {factors : List AtomTree}
    (solid : ∀ factor ∈ factors, SolidFactor factor) :
    OrdinaryTerm (AtomTree.mul factors).normalize := by
  rw [normalize, normalizeMul, normalizeAll_eq_map]
  have outcome : ∀ operand ∈ factors.map normalize,
      operand = .num 1 ∨ operand.numValue? = none ∧ Kernel (splitPower operand).1 :=
    List.forall_mem_map.mpr fun factor member => (solid factor member).kernel
  obtain ⟨entries, constant, collects, -, ones, pieces⟩ :=
    collect_pieces (fun _ _ notZero notOne =>
      ⟨Or.inr (Or.inr rfl), notZero, fun isOne => absurd isOne notOne⟩) outcome
  refine ordinaryTerm_finish ones collects ?_ ?_
  · exact fun piece member =>
      ⟨(pieces piece member).isSymbolic, (pieces piece member).tag_ne.2⟩
  · intro only isOnly
    exact (pieces only (by rw [isOnly]; exact List.mem_cons_self)).ordinaryTerm

/-- A product of gathered factors of which two remain becomes an ordinary term. -/
theorem ordinaryTerm_of_gathers
    {factors : List AtomTree}
    (canonical : ∀ factor ∈ factors, factor.Canonical)
    (gathers : products.Gathers factors)
    (noNumbers : numbers factors = [])
    (stays : products.Stays factors) :
    OrdinaryTerm (AtomTree.mul factors).normalize := by
  rw [normalize, normalizeMul, normalizeAll_eq_map,
    map_normalize_of_normal canonical gathers.normal]
  have none : ∀ value, value ∉ numbers factors := by
    rw [noNumbers]
    exact fun _ => List.not_mem_nil
  obtain ⟨entries, constant, collects⟩ :=
    exists_collect (fun value member => absurd member (none value)) [] products.neutral
  have tallied := Collector.tallied_nil.collect collects
  rw [List.nil_append] at tallied
  refine ordinaryTerm_finish (fun value member => absurd member (none value)) collects ?_ ?_
  · intro piece member
    obtain ⟨entry, entryMember, pieceMember⟩ := List.mem_flatMap.mp member
    have stable := (stable_of_gathers gathers tallied entryMember pieceMember).1
    exact ⟨stable.isSymbolic, stable.kept⟩
  · intro only isOnly
    have several := stays.two_le tallied
    rw [isOnly, List.length_singleton] at several
    omega

/-- A sum of which two terms remain stays a sum. -/
theorem tag_normalize_of_stays
    {terms : List AtomTree}
    (canonical : ∀ term ∈ terms, term.Canonical)
    (normal : ∀ term ∈ terms, term.Normal)
    (stays : sums.Stays terms) :
    (AtomTree.add terms).normalize.tag = .add := by
  rw [normalize, normalizeAdd, normalizeAll_eq_map, map_normalize_of_normal canonical normal]
  have noAbsorbing : ∀ value ∈ numbers terms, sums.absorbing ≠ some value :=
    fun value _ => absorbing_sums value
  obtain ⟨entries, constant, collects⟩ := exists_collect noAbsorbing [] sums.neutral
  have tallied := Collector.tallied_nil.collect collects
  rw [List.nil_append] at tallied
  have several := stays.two_le tallied
  have severalCollected : 2 ≤ (sums.collected entries constant).length := by
    rw [Collector.collected]
    split_ifs
    · rw [List.length_append]
      omega
    · exact several
  rw [Collector.finish, collects]
  simp only [assemble_of_two_le severalCollected]
  rfl

theorem StaysSum.tag_normalize
    {tree : AtomTree}
    (stays : StaysSum tree)
    (canonical : tree.Canonical) :
    tree.normalize.tag = .add := by
  cases stays with
  | normal normal =>
      rw [(normalize_eq_self_iff canonical).mpr normal]
      rfl
  | @gathered terms sumsUp stays =>
      exact @tag_normalize_of_stays terms (fun term member => canonical.child member)
        sumsUp.normal stays

/-- A sum is a base that a product does not splice. -/
theorem plain_of_tag_add
    {tree : AtomTree}
    (isSum : tree.tag = .add) :
    products.Plain tree := by
  cases tree with
  | add terms => exact ⟨rfl, nofun, rfl⟩
  | num | var | mul | pow | func => cases isSum

/-- A base that stays solid or a sum is its own base before and after. -/
theorem Solid.split
    {base : AtomTree}
    (solid : Solid base) :
    base.numValue? = none ∧ splitPower base = (base, 1) := by
  cases solid with
  | var symbol =>
      exact ⟨rfl, rfl⟩
  | func head arguments =>
      exact ⟨rfl, rfl⟩
  | pow base rigid =>
      refine ⟨rfl, splitPower_eq_self fun other value same => ?_⟩
      cases same
      have kernel := rigid.kernel
      cases rigid

/-- Only a variable becomes a variable. -/
theorem Solid.normalize_eq_var_iff
    {base : AtomTree}
    (solid : Solid base)
    (symbol : SymbolTable.Symbol) :
    base.normalize = .var symbol ↔ base = .var symbol := by
  cases solid with
  | var other =>
      exact Iff.rfl
  | func head arguments =>
      exact iff_of_false (by rintro ⟨⟩) (by rintro ⟨⟩)
  | @pow base exponent rigid =>
      refine iff_of_false ?_ (by rintro ⟨⟩)
      rw [normalize]
      rcases normalizePow_cases base.normalize exponent.normalize with
        ⟨isOne, -⟩ | ⟨-, same⟩ | ⟨kept, -⟩
      · rw [isOne]
        rintro ⟨⟩
      · have isSymbolic := rigid.kernel.isSymbolic
        rw [same] at isSymbolic
        cases isSymbolic
      · rw [kept]
        rintro ⟨⟩

/-- What a product needs to know of a base that stays solid or a sum. -/
theorem base_outcome
    {base : AtomTree}
    (canonical : base.Canonical)
    (stays : Solid base ∨ StaysSum base) :
    products.Plain base.normalize ∧
      base.numValue? = none ∧ splitPower base = (base, 1) ∧
        ∀ symbol, base.normalize = .var symbol ↔ base = .var symbol := by
  rcases stays with solid | sum
  · exact ⟨⟨solid.rigid.kernel.isSymbolic, solid.rigid.kernel.tag_ne.2, solid.own⟩,
      solid.split.1, solid.split.2, solid.normalize_eq_var_iff⟩
  · have isSum := sum.tag_normalize canonical
    have shape : ∃ terms, base = .add terms := by
      cases sum with
      | normal => exact ⟨_, rfl⟩
      | gathered => exact ⟨_, rfl⟩
    obtain ⟨terms, rfl⟩ := shape
    refine ⟨plain_of_tag_add isSum, rfl, rfl, fun symbol => iff_of_false ?_ nofun⟩
    intro same
    rw [same] at isSum
    cases isSum

/-- Operands that keep their share of a total keep the total. -/
theorem Collector.total_map
    {change : AtomTree → AtomTree}
    {key : AtomTree}
    (keeps :
      ∀ operand ∈ operands,
        collector.total [change operand] key = collector.total [operand] key) :
    collector.total (operands.map change) key = collector.total operands key := by
  induction operands with
  | nil =>
      rfl
  | cons operand rest inductionHypothesis =>
      rw [List.map_cons, ← List.singleton_append, Collector.total_of_append,
        keeps operand List.mem_cons_self,
        inductionHypothesis fun other member => keeps other (List.mem_cons_of_mem _ member),
        ← Collector.total_of_append, List.singleton_append]

/-- What the exponents of a variable add up to is not changed. -/
theorem total_raised
    {base factor : AtomTree}
    {amount : ℚ}
    (raised : Raised base amount factor)
    (canonical : base.Canonical)
    (stays : Solid base ∨ StaysSum base)
    (symbol : SymbolTable.Symbol) :
    products.total [factor.normalize] (.var symbol) =
      products.total [factor] (.var symbol) := by
  obtain ⟨plain, isSymbolic, own, variable_iff⟩ := base_outcome canonical stays
  have before : factor.numValue? = none ∧ splitPower factor = (base, amount) := by
    cases raised with
    | one => exact ⟨isSymbolic, own⟩
    | pow => exact ⟨rfl, rfl⟩
  have share : products.total [factor] (.var symbol) =
      if base = .var symbol then amount else 0 := by
    rw [Collector.total_of_singleton before.1,
      show products.split factor = (base, amount) from before.2]
  rw [share]
  rcases raised.outcome plain with ⟨isOne, isZero⟩ | ⟨stillSymbolic, split⟩
  · rw [isOne, isZero, ite_self]
    rfl
  · rw [Collector.total_of_singleton stillSymbolic,
      show products.split factor.normalize = (base.normalize, amount) from split]
    simp only [variable_iff]

/-- Factors with plain bases become operands whose pieces are not spliced. -/
theorem plain_pieces
    (outcome :
      ∀ operand ∈ operands, operand = .num 1 ∨
        operand.numValue? = none ∧ products.Plain (splitPower operand).1) :
    ∃ entries constant,
      products.collect operands [] products.neutral = .ok (entries, constant) ∧
        products.Tallied operands entries ∧
        (∀ value ∈ numbers operands, value = 1) ∧
        ∀ piece ∈ entries.flatMap products.rebuilt,
          piece.numValue? = none ∧ piece.tag ≠ .mul := by
  apply collect_pieces
  · intro _ _ _ _
    exact ⟨rfl, by rintro ⟨⟩⟩
  · intro operand member
    exact (outcome operand member).imp_right
      (And.imp_right fun plain => ⟨plain.isSymbolic, plain.kept⟩)

/-- A product in which a variable remains becomes an ordinary term. -/
theorem ordinaryTerm_of_multiplied
    {factors : List AtomTree}
    (canonical : ∀ factor ∈ factors, factor.Canonical)
    (raised :
      ∀ factor ∈ factors, ∃ base amount,
        (Solid base ∨ StaysSum base) ∧ Raised base amount factor)
    {symbol : SymbolTable.Symbol}
    (remains : products.total factors (.var symbol) ≠ 0) :
    OrdinaryTerm (AtomTree.mul factors).normalize := by
  rw [normalize, normalizeMul, normalizeAll_eq_map]
  have outcome : ∀ operand ∈ factors.map normalize, operand = .num 1 ∨
      operand.numValue? = none ∧ products.Plain (splitPower operand).1 := by
    intro operand member
    obtain ⟨factor, factorMember, rfl⟩ := List.mem_map.mp member
    obtain ⟨base, amount, stays, isRaised⟩ := raised factor factorMember
    have baseCanonical := isRaised.base_canonical (canonical factor factorMember)
    have plain := (base_outcome baseCanonical stays).1
    rcases isRaised.outcome plain with ⟨isOne, -⟩ | ⟨isSymbolic, split⟩
    · exact Or.inl isOne
    · rw [split]
      exact Or.inr ⟨isSymbolic, plain⟩
  obtain ⟨entries, constant, collects, tallied, ones, pieces⟩ := plain_pieces outcome
  have total : products.total (factors.map normalize) (.var symbol) ≠ 0 := by
    rwa [Collector.total_map]
    intro factor member
    obtain ⟨base, amount, stays, isRaised⟩ := raised factor member
    exact total_raised isRaised (isRaised.base_canonical (canonical factor member)) stays symbol
  -- the variable is among the pieces
  have kernelPiece : ∃ piece ∈ entries.flatMap products.rebuilt, Kernel piece := by
    have entered : ∃ entry ∈ entries, entry.1 = .var symbol := by
      by_contra none
      apply total
      apply Collector.total_eq_zero
      intro operand member same
      obtain ⟨entry, entryMember, isKey⟩ := tallied.entered operand member
      exact none ⟨entry, entryMember, isKey.trans same⟩
    obtain ⟨entry, entryMember, isKey⟩ := entered
    have notZero : entry.2 ≠ 0 := by rwa [tallied.total entry entryMember, isKey]
    have kernel : Kernel entry.1 := by
      rw [isKey]
      exact kernel_of_own (Or.inl rfl) rfl
    have isPiece : ∃ piece, piece ∈ products.rebuilt entry := by
      by_cases isOne : entry.2 = 1
      · exact ⟨_, mem_rebuilt.mpr (Or.inl ⟨isOne, rfl⟩)⟩
      · exact ⟨_, mem_rebuilt.mpr (Or.inr ⟨notZero, isOne, rfl⟩)⟩
    obtain ⟨piece, member⟩ := isPiece
    exact ⟨piece, List.mem_flatMap.mpr ⟨entry, entryMember, member⟩, kernel.of_rebuilt member⟩
  refine ordinaryTerm_finish ones collects pieces ?_
  intro only isOnly
  obtain ⟨piece, member, kernel⟩ := kernelPiece
  rw [isOnly] at member
  rw [← List.mem_singleton.mp member]
  exact kernel.ordinaryTerm

/-- A loose base becomes a base that a product does not splice. -/
theorem LooseBase.plain
    {tree : AtomTree}
    (loose : LooseBase tree)
    (canonical : tree.Canonical) :
    products.Plain tree.normalize := by
  cases loose with
  | solid solid =>
      exact ⟨solid.rigid.kernel.isSymbolic, solid.rigid.kernel.tag_ne.2, solid.own⟩
  | normal normal plain =>
      rwa [(normalize_eq_self_iff canonical).mpr normal]
  | sum stays =>
      exact plain_of_tag_add (stays.tag_normalize canonical)

/-- Amounts of at least 1 add up to at least the number of like operands. -/
theorem Collector.le_total
    (large : ∀ operand ∈ symbolic operands, 1 ≤ (collector.split operand).2)
    (key : AtomTree) :
    (((symbolic operands).filter fun operand =>
      (collector.split operand).1 = key).length : ℚ) ≤ collector.total operands key := by
  have bound := List.card_nsmul_le_sum
    (((symbolic operands).filter fun operand => (collector.split operand).1 = key).map
      fun operand => (collector.split operand).2) 1 (by
      intro amount member
      obtain ⟨operand, operandMember, rfl⟩ := List.mem_map.mp member
      exact large operand (List.mem_of_mem_filter operandMember))
  rwa [List.length_map, nsmul_one] at bound

/-- A product of several loose bases, none of them divided by, becomes an ordinary term. -/
theorem ordinaryTerm_of_raised
    {factors : List AtomTree}
    (canonical : ∀ factor ∈ factors, factor.Canonical)
    (several : 2 ≤ factors.length)
    (raised :
      ∀ factor ∈ factors, ∃ base amount,
        LooseBase base ∧ 1 ≤ amount ∧ Raised base amount factor) :
    OrdinaryTerm (AtomTree.mul factors).normalize := by
  rw [normalize, normalizeMul, normalizeAll_eq_map]
  have outcome : ∀ operand ∈ factors.map normalize, operand.numValue? = none ∧
      products.Plain (splitPower operand).1 ∧ 1 ≤ (splitPower operand).2 := by
    intro operand member
    obtain ⟨factor, factorMember, rfl⟩ := List.mem_map.mp member
    obtain ⟨base, amount, loose, large, isRaised⟩ := raised factor factorMember
    have plain := loose.plain (isRaised.base_canonical (canonical factor factorMember))
    rcases isRaised.outcome plain with ⟨-, isZero⟩ | ⟨isSymbolic, split⟩
    · exact absurd (isZero ▸ large) (by norm_num)
    · rw [split]
      exact ⟨isSymbolic, plain, large⟩
  have everySymbolic : symbolic (factors.map normalize) = factors.map normalize := by
    rw [symbolic, List.filter_eq_self]
    exact fun operand member => by simpa using (outcome operand member).1
  obtain ⟨entries, constant, collects, tallied, ones, pieces⟩ :=
    plain_pieces fun operand member =>
      Or.inr ⟨(outcome operand member).1, (outcome operand member).2.1⟩
  have bound := @Collector.le_total products _ fun operand member =>
    (outcome operand (List.mem_of_mem_filter member)).2.2
  have notZero : ∀ entry ∈ entries, entry.2 ≠ 0 := by
    intro entry member isZero
    obtain ⟨operand, operandMember, isKey⟩ := tallied.key entry member
    have atLeast := bound entry.1
    rw [← tallied.total entry member, isZero, Nat.cast_nonpos,
      List.length_eq_zero_iff] at atLeast
    exact List.filter_eq_nil_iff.mp atLeast operand operandMember (by simpa using isKey)
  refine ordinaryTerm_finish ones collects pieces ?_
  intro only isOnly
  -- a single piece is of a single key, whose exponents are several
  have oneEntry : ∃ entry, entries = [entry] := by
    have lengths : ∀ entry ∈ entries, (products.rebuilt entry).length = 1 := by
      intro entry member
      rw [Collector.rebuilt, if_neg (notZero entry member)]
      split_ifs <;> rfl
    have count := congrArg List.length isOnly
    rw [List.length_flatMap, List.map_congr_left lengths, List.map_const', List.sum_replicate,
      nsmul_one, Nat.cast_id] at count
    exact List.length_eq_one_iff.mp count
  obtain ⟨entry, rfl⟩ := oneEntry
  have every : (symbolic (factors.map normalize)).filter
      (fun operand => (products.split operand).1 = entry.1) = factors.map normalize := by
    rw [everySymbolic, List.filter_eq_self]
    intro operand member
    obtain ⟨found, isFound, isKey⟩ :=
      tallied.entered operand (by rw [everySymbolic]; exact member)
    rw [List.mem_singleton.mp isFound] at isKey
    exact decide_eq_true isKey.symm
  have twice : 2 ≤ entry.2 := by
    have atLeast := bound entry.1
    rw [every, List.length_map, ← tallied.total entry List.mem_cons_self] at atLeast
    exact le_trans (by exact_mod_cast several) atLeast
  rw [List.flatMap_cons, List.flatMap_nil, List.append_nil] at isOnly
  have member : only ∈ products.rebuilt entry := by
    rw [isOnly]
    exact List.mem_cons_self
  rcases mem_rebuilt.mp member with ⟨isOne, -⟩ | ⟨-, notOne, rfl⟩
  · rw [isOne] at twice
    norm_num at twice
  · exact Kernel.ordinaryTerm ⟨Or.inr (Or.inr rfl), notZero entry List.mem_cons_self,
      fun isOne => absurd isOne notOne⟩

theorem LooseTerm.ordinaryTerm
    {tree : AtomTree}
    (loose : LooseTerm tree)
    (canonical : tree.Canonical) :
    OrdinaryTerm tree.normalize := by
  cases loose with
  | simple simple =>
      exact simple.ordinaryTerm.1
  | product solid =>
      exact ordinaryTerm_of_solid solid
  | gathered gathers noNumbers stays =>
      exact ordinaryTerm_of_gathers (fun factor member => canonical.child member) gathers
        noNumbers stays
  | raised several raised =>
      exact ordinaryTerm_of_raised (fun factor member => canonical.child member) several
        raised
  | multiplied symbol raised remains =>
      exact ordinaryTerm_of_multiplied (fun factor member => canonical.child member) raised
        remains

/-- A loose factor becomes a number or has a base that is not spliced. -/
theorem LooseFactor.plain
    {tree : AtomTree}
    (loose : LooseFactor tree)
    (canonical : tree.Canonical)
    (isSymbolic : tree.normalize.numValue? = none) :
    products.Plain (splitPower tree.normalize).1 := by
  cases loose with
  | num value =>
      cases isSymbolic
  | base base =>
      have plain := base.plain canonical
      rwa [show splitPower tree.normalize = _ from plain.own]
  | @pow base exponent loose =>
      have plain := loose.plain (canonical.child (by simp [children]))
      rw [normalize] at isSymbolic ⊢
      rcases normalizePow_cases base.normalize exponent.normalize with
        ⟨isOne, -⟩ | ⟨isBase, -⟩ | ⟨kept, -⟩
      · rw [isOne] at isSymbolic
        cases isSymbolic
      · rwa [isBase, show splitPower base.normalize = _ from plain.own]
      · rw [kept, splitPower.eq_def]
        split
        · rename_i same
          rwa [← (pow.inj same).1]
        · rename_i notNumber
          exact ⟨rfl, (by rintro ⟨⟩), splitPower_eq_self notNumber⟩

/-- A stray term becomes a number, or a multiple of a sum by one of the numbers. -/
theorem StrayTerm.outcome
    {amounts : AddSubsemigroup ℚ}
    (apart : 1 ∉ amounts)
    {term : AtomTree}
    (stray : StrayTerm amounts term)
    (canonical : term.Canonical) :
    sums.Within amounts term.normalize ∧ ¬LongMonomial term.normalize ∧
      (term.normalize.numValue? = none → (splitCoefficient term.normalize).1.tag ≠ .mul) := by
  obtain ⟨coefficient, isAmount, sum, stays, multiple⟩ := stray
  have isSum : sum.normalize.tag = .add := by
    obtain ⟨same⟩ := multiple
    exact stays.tag_normalize (canonical.child (same.mem_iff.mpr (by simp)))
  have plain := plain_of_tag_add isSum
  have rebuilt : products.rebuilt (splitPower sum.normalize) = [sum.normalize] := by
    rw [show splitPower sum.normalize = (sum.normalize, 1) from plain.own,
      Collector.rebuilt, if_neg one_ne_zero, if_pos rfl]
  have notOne : coefficient ≠ 1 := by
    rintro rfl
    exact apart isAmount
  rcases multiple.outcome plain.isSymbolic plain.kept rebuilt with
    ⟨value, isNumber⟩ | isMultiple
  · rw [isNumber]
    refine ⟨(by rintro ⟨⟩), ?_, (by rintro ⟨⟩)⟩
    rintro ⟨isProduct, -⟩
    cases isProduct
  · have split : splitCoefficient (.mul [.num coefficient, sum.normalize]) =
        (sum.normalize, coefficient) := rfl
    rw [isMultiple, if_neg notOne, split]
    refine ⟨fun _ => Or.inr isAmount, ?_, fun _ => plain.kept⟩
    intro long
    exact notOne (congrArg Prod.snd (split.symm.trans long.2.2))

/-- A stray factor becomes a number, or has a plain base, or one of the exponents. -/
theorem StrayFactor.within
    {amounts : AddSubsemigroup ℚ}
    (apart : 1 ∉ amounts)
    {factor : AtomTree}
    (stray : StrayFactor amounts factor) :
    products.Within amounts factor.normalize := by
  obtain ⟨exponent, isAmount, base, rfl⟩ := stray
  intro isSymbolic
  rw [normalize, normalize] at isSymbolic ⊢
  rcases normalizePow_cases base.normalize (.num exponent) with
    ⟨isOne, -⟩ | ⟨-, same⟩ | ⟨kept, -⟩
  · rw [isOne] at isSymbolic
    cases isSymbolic
  · rw [num.inj same] at isAmount
    exact absurd isAmount apart
  · rw [kept]
    exact Or.inr isAmount

end Products

section Main

variable {collector : Collector}

/-- Whether operands gather does not depend on their order. -/
theorem Collector.Gathers.perm
    {operands others : List AtomTree}
    (gathers : collector.Gathers operands)
    (same : operands.Perm others) :
    collector.Gathers others where
  normal := fun operand member => gathers.normal operand (same.mem_iff.mpr member)
  plain := by
    intro operand member
    rw [← Collector.total_of_perm same]
    exact gathers.plain operand ((same.filter _).mem_iff.mpr member)

theorem SumsUp.perm
    {terms others : List AtomTree}
    (sumsUp : SumsUp terms)
    (same : terms.Perm others) :
    SumsUp others where
  toGathers := sumsUp.toGathers.perm same
  once := by
    intro term member long
    rw [← same.count_eq]
    exact sumsUp.once term (same.mem_iff.mpr member) long
  fresh := by
    intro term member free isTerm
    rw [← Collector.total_of_perm same] at isTerm
    exact sumsUp.fresh term (same.mem_iff.mpr member) free (same.mem_iff.mpr isTerm)

/-- Operands that gather still do beside operands with plain keys, and beside stray ones
when their own keys are plain or they are stray too. -/
theorem Collector.Gathers.append
    {settled others : List AtomTree}
    {amounts : AddSubsemigroup ℚ}
    (gathers : collector.Gathers settled)
    (normal : ∀ operand ∈ others, operand.Normal)
    (apart : 1 ∉ amounts)
    (within : ∀ operand ∈ others, collector.Within amounts operand)
    (beside :
      (∀ operand ∈ others, operand.numValue? = none →
        collector.Plain (collector.split operand).1) ∨
        ∀ operand ∈ settled, collector.Within amounts operand) :
    collector.Gathers (settled ++ others) where
  normal := List.forall_mem_append.mpr ⟨gathers.normal, normal⟩
  plain := by
    intro operand member
    by_cases isPlain : collector.Plain (collector.split operand).1
    · exact Or.inl isPlain
    right
    rcases beside with othersPlain | settledWithin
    · have nothing : collector.total others (collector.split operand).1 = 0 := by
        apply Collector.total_eq_zero
        intro other otherMember same
        obtain ⟨isOther, isSymbolic⟩ := List.mem_filter.mp otherMember
        apply isPlain
        rw [← same]
        exact othersPlain other isOther (by simpa using isSymbolic)
      have isSettled : operand ∈ symbolic settled := by
        rw [symbolic_append] at member
        rcases List.mem_append.mp member with old | new
        · exact old
        · obtain ⟨isOther, isSymbolic⟩ := List.mem_filter.mp new
          exact absurd (othersPlain operand isOther (by simpa using isSymbolic)) isPlain
      rw [Collector.total_of_append, nothing, add_zero]
      exact (gathers.plain operand isSettled).resolve_left isPlain
    · -- every operand of this key is stray, and so is what they add up to
      intro isOne
      apply apart
      rw [← isOne]
      refine Collector.total_mem ⟨operand, member, rfl⟩ ?_
      intro given givenMember same
      obtain ⟨isGiven, isSymbolic⟩ := List.mem_filter.mp givenMember
      have allWithin := List.forall_mem_append.mpr ⟨settledWithin, within⟩
      have notPlain : ¬collector.Plain (collector.split given).1 := by rwa [same]
      exact (allWithin given isGiven (by simpa using isSymbolic)).resolve_left notPlain

/-- Terms that add up still do beside ordinary ones. -/
theorem SumsUp.append
    {settled others : List AtomTree}
    (sumsUp : SumsUp settled)
    (canonical : ∀ term ∈ settled ++ others, term.Canonical)
    (gathers : sums.Gathers (settled ++ others))
    (short : ∀ term ∈ others, ¬LongMonomial term)
    (simple :
      (∃ term ∈ settled, LongMonomial term) →
        ∀ term ∈ others, term.numValue? = none → (splitCoefficient term).1.tag ≠ .mul) :
    SumsUp (settled ++ others) where
  toGathers := gathers
  once := by
    intro term member long
    rcases List.mem_append.mp member with old | new
    · have absent : term ∉ others := fun isOther => short term isOther long
      rw [List.count_append, List.count_eq_zero_of_not_mem absent, add_zero]
      exact sumsUp.once term old long
    · exact absurd long (short term new)
  fresh := by
    intro term member free isTerm
    have isSymbolic : term.numValue? = none := by
      rw [eq_mul_of_children free.1 rfl]
      rfl
    have long := longMonomial_rebuild (gathers.normal term member) free (canonical _ isTerm)
    have isSettled : sums.rebuild term (sums.total (settled ++ others) term) ∈ settled := by
      rcases List.mem_append.mp isTerm with old | new
      · exact old
      · exact absurd long (short _ new)
    -- beside a monomial with a coefficient no other term has a product for its key
    have otherKeys := simple ⟨_, isSettled, long⟩
    have nothing : sums.total others term = 0 := by
      apply Collector.total_eq_zero
      intro other otherMember same
      obtain ⟨isOther, otherSymbolic⟩ := List.mem_filter.mp otherMember
      apply otherKeys other isOther (by simpa using otherSymbolic)
      rw [show (splitCoefficient other).1 = term from same]
      exact free.1
    rw [Collector.total_of_append, nothing, add_zero] at isSettled
    rcases List.mem_append.mp member with old | new
    · exact sumsUp.fresh term old free isSettled
    · apply otherKeys term new isSymbolic
      rw [free.own]
      exact free.1

/-- A key that no other operand has totals what its operand adds. -/
theorem Collector.total_of_nodup
    {operands : List AtomTree}
    (keys : ((symbolic operands).map fun operand => (collector.split operand).1).Nodup)
    {operand : AtomTree}
    (member : operand ∈ symbolic operands) :
    collector.total operands (collector.split operand).1 = (collector.split operand).2 := by
  have alone : (symbolic operands).filter
      (fun other => (collector.split other).1 = (collector.split operand).1) = [operand] := by
    have same : ∀ other ∈ symbolic operands,
        decide ((collector.split other).1 = (collector.split operand).1) =
          (other == operand) := by
      intro other otherMember
      rw [Bool.eq_iff_iff, decide_eq_true_iff, beq_iff_eq]
      exact ⟨List.inj_on_of_nodup_map keys otherMember member, fun isSame => by rw [isSame]⟩
    rw [List.filter_congr same, List.filter_beq,
      List.count_eq_one_of_mem (List.Nodup.of_map _ keys) member]
    rfl
  rw [Collector.total, alone]
  exact List.sum_singleton

/-- Separate normal operands gather. -/
theorem Collector.Separate.gathers
    {operands : List AtomTree}
    (separate : collector.Separate operands)
    (normal : ∀ operand ∈ operands, operand.Normal)
    (flat : ∀ operand ∈ operands, operand.tag ≠ collector.tag) :
    collector.Gathers operands where
  normal := normal
  plain := by
    intro operand member
    obtain ⟨isOperand, isSymbolic⟩ := List.mem_filter.mp member
    rw [Collector.total_of_nodup separate.distinct.keys member]
    by_cases isOne : (collector.split operand).2 = 1
    · have own := separate.distinct.unit operand member isOne
      left
      rw [own]
      exact ⟨by simpa using isSymbolic, flat operand isOperand, Prod.ext own isOne⟩
    · exact Or.inr isOne

/-- Separate normal terms add up once. -/
theorem Collector.Separate.sumsUp
    {terms : List AtomTree}
    (separate : sums.Separate terms)
    (canonical : ∀ term ∈ terms, term.Canonical)
    (normal : ∀ term ∈ terms, term.Normal)
    (flat : ∀ term ∈ terms, term.tag ≠ .add) :
    SumsUp terms := by
  have isSymbolic : ∀ term ∈ terms, term.tag = .mul → term ∈ symbolic terms := by
    intro term member isProduct
    refine List.mem_filter.mpr ⟨member, ?_⟩
    cases term <;> first | rfl | cases isProduct
  refine ⟨separate.gathers normal flat, ?_, ?_⟩
  · rintro term member ⟨isProduct, -, own⟩
    have count := (total_eq_count_of_mul canonical member (by rw [own]; exact isProduct)).2
    have total := @Collector.total_of_nodup sums _ separate.distinct.keys _
      (isSymbolic term member isProduct)
    rw [show sums.split term = (term, 1) from own, count] at total
    exact Nat.cast_eq_one.mp total
  · intro term member free isTerm
    have total := @Collector.total_of_nodup sums _ separate.distinct.keys _
      (isSymbolic term member free.1)
    rw [show sums.split term = (term, 1) from free.own] at total
    rw [total] at isTerm
    exact (amount_of_normal_rebuild free (normal _ isTerm)).2 rfl

end Main

end AtomTree

end AtomCore
