import Stocas.Atom.Idempotence
import Stocas.Poly.PolynomialAtom

namespace PolyCore

open AtomCore (AtomTree)
open AtomCore.AtomTree (flattenOperands flattenOperands_eq_self mkAdd mkMul normal_mkAdd
  normal_mkMul numbers operandsOf products splitCoefficient splitPower sums symbolic
  variadicChildren_congr)
open SymbolTable (Symbol)

/-!
# When the written polynomial is in normal form

The normalizer collects the terms of a sum under their symbolic parts and the factors of
a product under their bases.  What a term looks like to it is its coefficient and the
powers of its symbols; two variables of one symbol look the same.
-/

variable {numVars : ℕ} (vars : Fin numVars → Symbol)

/-- The powers of symbols in a monomial. -/
def variablePowers (monomial : Monomial numVars) : Multiset (Symbol × ℕ) :=
  ((occurring monomial).map fun index => (vars index, monomial.exponent index) :
    List (Symbol × ℕ))

variable {vars}

theorem mem_occurring
    {monomial : Monomial numVars}
    {index : Fin numVars} :
    index ∈ occurring monomial ↔ monomial.exponent index ≠ 0 := by
  simp [occurring]

/-- Only the monomial 1 has no variables. -/
theorem occurring_eq_nil_iff
    {monomial : Monomial numVars} :
    occurring monomial = [] ↔ monomial = 1 := by
  constructor
  · intro noneOccurs
    ext index
    by_contra occurs
    have member : index ∈ occurring monomial := mem_occurring.mpr occurs
    rw [noneOccurs] at member
    cases member
  · rintro rfl
    simp [occurring]

/-- The factor of a power of a symbol. -/
def powerTree (power : Symbol × ℕ) : AtomTree :=
  if power.2 = 1 then
    .var power.1
  else
    .pow (.var power.1) (.num power.2)

theorem monomialTrees_eq_map
    (monomial : Monomial numVars) :
    monomialTrees vars monomial =
      ((occurring monomial).map fun index =>
        (vars index, monomial.exponent index)).map powerTree := by
  rw [monomialTrees, List.map_map]
  rfl

/-- The factors of a term are no numbers, sums or products. -/
theorem tag_powerTree (power : Symbol × ℕ) :
    (powerTree power).tag = .var ∨ (powerTree power).tag = .pow := by
  rw [powerTree]
  split
  · exact Or.inl rfl
  · exact Or.inr rfl

theorem splitPower_powerTree (power : Symbol × ℕ) :
    splitPower (powerTree power) = (.var power.1, (power.2 : ℚ)) := by
  rw [powerTree]
  split
  · rename_i isOne
    rw [isOne, Nat.cast_one]
    rfl
  · rfl

theorem numValue?_powerTree (power : Symbol × ℕ) :
    (powerTree power).numValue? = none := by
  rw [powerTree]
  split <;> rfl

theorem normal_powerTree
    {power : Symbol × ℕ}
    (isNonzero : power.2 ≠ 0) :
    (powerTree power).Normal := by
  rw [powerTree]
  split
  · exact .var _
  · rename_i notOne
    refine .pow (.var _) (.num _) ?_ ?_
    · simpa using isNonzero
    · simpa using notOne

/-- The coefficient of a term, if it is written. -/
def writtenCoefficient (term : Term numVars ℚ) : List ℚ :=
  if occurring term.1 = [] ∨ term.2 ≠ 1 then
    [term.2]
  else
    []

theorem termOperands_eq
    (term : Term numVars ℚ) :
    termOperands vars term =
      (writtenCoefficient term).map .num ++ monomialTrees vars term.1 := by
  have noneOccurs : monomialTrees vars term.1 = [] ↔ occurring term.1 = [] :=
    List.map_eq_nil_iff
  simp only [termOperands, writtenCoefficient, noneOccurs]
  split <;> rfl

/-- The coefficient is written only once, and not when it is a needless 1. -/
theorem mem_writtenCoefficient
    {term : Term numVars ℚ}
    {value : ℚ}
    (member : value ∈ writtenCoefficient term) :
    value = term.2 ∧ (occurring term.1 = [] ∨ value ≠ 1) := by
  rw [writtenCoefficient] at member
  split at member
  · rename_i needed
    rw [List.mem_singleton.mp member]
    exact ⟨rfl, needed⟩
  · cases member

theorem length_writtenCoefficient
    (term : Term numVars ℚ) :
    (writtenCoefficient term).length ≤ 1 := by
  rw [writtenCoefficient]
  split <;> simp

theorem prod_writtenCoefficient
    (term : Term numVars ℚ) :
    (writtenCoefficient term).prod = term.2 := by
  rw [writtenCoefficient]
  split
  · simp
  · rename_i notNeeded
    rw [not_or, not_not] at notNeeded
    simp [notNeeded.2]

theorem symbolic_map_num (values : List ℚ) :
    symbolic (values.map .num) = [] := by
  rw [symbolic, List.filter_eq_nil_iff]
  intro tree member
  obtain ⟨value, -, rfl⟩ := List.mem_map.mp member
  simp [AtomTree.numValue?]

theorem numbers_map_num (values : List ℚ) :
    numbers (values.map .num) = values := by
  rw [numbers, List.filterMap_map]
  exact List.filterMap_some

/-- The bases of the factors are the variables' symbols. -/
theorem map_splitPower_monomialTrees
    (monomial : Monomial numVars) :
    (monomialTrees vars monomial).map (fun tree => (splitPower tree).1) =
      ((occurring monomial).map vars).map .var := by
  rw [monomialTrees_eq_map, List.map_map, List.map_map, List.map_map]
  refine List.map_congr_left fun index _ => ?_
  simp [splitPower_powerTree]

/-- A factor whose base and exponent the normalizer keeps. -/
structure KeptFactor (tree : AtomTree) : Prop where
  symbolic : tree.numValue? = none
  unit : (splitPower tree).2 = 1 → (splitPower tree).1 = tree
  amount : (splitPower tree).2 ≠ 0

theorem keptFactor_powerTree
    {power : Symbol × ℕ}
    (isNonzero : power.2 ≠ 0) :
    KeptFactor (powerTree power) where
  symbolic := numValue?_powerTree power
  unit := by
    intro isOne
    rw [splitPower_powerTree] at isOne
    have isOne : power.2 = 1 := Nat.cast_eq_one.mp isOne
    rw [splitPower_powerTree, powerTree, if_pos isOne]
  amount := by
    rw [splitPower_powerTree]
    exact Nat.cast_ne_zero.mpr isNonzero

theorem keptFactor_monomialTrees
    {monomial : Monomial numVars}
    {tree : AtomTree}
    (member : tree ∈ monomialTrees vars monomial) :
    KeptFactor tree := by
  rw [monomialTrees_eq_map] at member
  obtain ⟨power, powerMember, rfl⟩ := List.mem_map.mp member
  obtain ⟨index, occurs, rfl⟩ := List.mem_map.mp powerMember
  exact keptFactor_powerTree (mem_occurring.mp occurs)

/-- Numbers and kept factors are collected when no base repeats. -/
theorem separate_products_iff
    {values : List ℚ}
    {factors : List AtomTree}
    (kept : ∀ factor ∈ factors, KeptFactor factor)
    (several : 2 ≤ (values.map AtomTree.num ++ factors).length) :
    products.Separate (values.map AtomTree.num ++ factors) ↔
      (factors.map fun factor => (splitPower factor).1).Nodup ∧
      values.length ≤ 1 ∧
      ∀ value ∈ values, value ≠ 1 ∧ value ≠ 0 := by
  have allSymbolic : symbolic (values.map AtomTree.num ++ factors) = factors := by
    have factorsSymbolic : symbolic factors = factors := by
      rw [symbolic, List.filter_eq_self]
      intro factor member
      simp [(kept factor member).symbolic]
    rw [AtomTree.symbolic_append, symbolic_map_num, factorsSymbolic, List.nil_append]
  have allNumbers : numbers (values.map AtomTree.num ++ factors) = values := by
    have noNumbers : numbers factors = [] := by
      rw [numbers, List.filterMap_eq_nil_iff]
      exact fun factor member => (kept factor member).symbolic
    rw [AtomTree.numbers_append, numbers_map_num, noNumbers, List.append_nil]
  constructor
  · intro separate
    refine ⟨?_, ?_, fun value member => ?_⟩
    · rw [← allSymbolic]
      exact separate.distinct.keys
    · rw [← allNumbers]
      exact separate.oneNumber
    · have number := separate.number value
      rw [allNumbers] at number
      obtain ⟨notNeutral, notAbsorbing⟩ := number member
      exact ⟨notNeutral, fun isZero => notAbsorbing (congrArg some isZero.symm)⟩
  · rintro ⟨nodup, oneNumber, number⟩
    refine ⟨several, ⟨?_, ?_⟩, ?_, ?_, ?_⟩
    · rw [allSymbolic]
      exact nodup
    · rw [allSymbolic]
      exact fun factor member => (kept factor member).unit
    · rw [allSymbolic]
      exact fun factor member => (kept factor member).amount
    · rw [allNumbers]
      exact oneNumber
    · rw [allNumbers]
      intro value member
      obtain ⟨notOne, notZero⟩ := number value member
      exact ⟨notOne, fun same => notZero (Option.some.inj same).symm⟩

/-- The operands of a term and other kept factors are collected when no base repeats. -/
theorem separate_termOperands_iff
    (vars : Fin numVars → Symbol)
    {term : Term numVars ℚ}
    (isNonzero : term.2 ≠ 0)
    {others : List AtomTree}
    (kept : ∀ other ∈ others, KeptFactor other)
    (several : 2 ≤ (termOperands vars term ++ others).length) :
    products.Separate (termOperands vars term ++ others) ↔
      (((occurring term.1).map vars).map AtomTree.var ++
        others.map fun other => (splitPower other).1).Nodup ∧
      (occurring term.1 = [] → term.2 ≠ 1) := by
  have allKept :
      ∀ tree ∈ monomialTrees vars term.1 ++ others, KeptFactor tree := by
    intro tree member
    rcases List.mem_append.mp member with own | other
    · exact keptFactor_monomialTrees own
    · exact kept tree other
  rw [termOperands_eq, List.append_assoc] at several ⊢
  rw [separate_products_iff allKept several, List.map_append, map_splitPower_monomialTrees]
  refine and_congr_right fun _ => ?_
  constructor
  · rintro ⟨-, number⟩ isNil isOne
    have written : (1 : ℚ) ∈ writtenCoefficient term := by
      rw [writtenCoefficient, if_pos (Or.inl isNil), isOne]
      exact List.mem_singleton_self 1
    exact (number 1 written).1 rfl
  · intro notOne
    refine ⟨length_writtenCoefficient term, fun value member => ?_⟩
    obtain ⟨rfl, needed⟩ := mem_writtenCoefficient member
    exact ⟨needed.elim notOne id, isNonzero⟩

/-- The operands of a term are numbers, variables and powers of variables. -/
theorem tag_termOperands
    {term : Term numVars ℚ}
    {operand : AtomTree}
    (member : operand ∈ termOperands vars term) :
    operand.tag = .num ∨ operand.tag = .var ∨ operand.tag = .pow := by
  rw [termOperands_eq] at member
  rcases List.mem_append.mp member with isNumber | isFactor
  · obtain ⟨value, -, rfl⟩ := List.mem_map.mp isNumber
    exact Or.inl rfl
  · rw [monomialTrees_eq_map] at isFactor
    obtain ⟨power, -, rfl⟩ := List.mem_map.mp isFactor
    exact Or.inr (tag_powerTree power)

theorem flatten_termOperands
    {tag : AtomCore.AtomTag}
    (variadic : tag = .add ∨ tag = .mul)
    (term : Term numVars ℚ) :
    flattenOperands tag (termOperands vars term) = termOperands vars term := by
  apply flattenOperands_eq_self
  intro operand member
  rcases tag_termOperands member with isTag | isTag | isTag <;>
    rcases variadic with rfl | rfl <;> simp [isTag]

theorem normal_termOperands
    {term : Term numVars ℚ}
    {operand : AtomTree}
    (member : operand ∈ termOperands vars term) :
    operand.Normal := by
  rw [termOperands_eq] at member
  rcases List.mem_append.mp member with isNumber | isFactor
  · obtain ⟨value, -, rfl⟩ := List.mem_map.mp isNumber
    exact .num value
  · rw [monomialTrees_eq_map] at isFactor
    obtain ⟨power, powerMember, rfl⟩ := List.mem_map.mp isFactor
    obtain ⟨index, occurs, rfl⟩ := List.mem_map.mp powerMember
    exact normal_powerTree (mem_occurring.mp occurs)

theorem length_termOperands
    (vars : Fin numVars → Symbol)
    (term : Term numVars ℚ) :
    (termOperands vars term).length =
      (writtenCoefficient term).length + (occurring term.1).length := by
  simp [termOperands_eq, monomialTrees]

theorem termOperands_ne_nil
    (vars : Fin numVars → Symbol)
    (term : Term numVars ℚ) :
    termOperands vars term ≠ [] := by
  intro isNil
  have length := length_termOperands vars term
  rw [isNil, List.length_nil] at length
  have noneOccurs : occurring term.1 = [] := List.length_eq_zero_iff.mp (by omega)
  rw [writtenCoefficient, if_pos (Or.inl noneOccurs), List.length_singleton] at length
  omega

/-- A term is written as its one operand or as a product of several. -/
theorem termTree_cases
    (term : Term numVars ℚ) :
    (∃ only ∈ termOperands vars term,
      termOperands vars term = [only] ∧ termTree vars term = only) ∨
      2 ≤ (termOperands vars term).length ∧
      termTree vars term = mkMul (termOperands vars term) := by
  rw [termTree]
  rcases unlessSingle_cases id mkMul (termOperands_ne_nil vars term) with
    ⟨only, isSingle, tree_eq⟩ | several
  · refine Or.inl ⟨only, ?_, isSingle, tree_eq⟩
    rw [isSingle]
    exact List.mem_singleton_self only
  · exact Or.inr several

/-- A term that is spliced into a product brings its operands. -/
theorem perm_operandsOf_termTree (term : Term numVars ℚ) :
    (operandsOf .mul (termTree vars term)).Perm (termOperands vars term) := by
  rcases termTree_cases term with ⟨only, member, isSingle, tree_eq⟩ | ⟨-, tree_eq⟩
  · have notMul : only.tag ≠ .mul := by
      rcases tag_termOperands member with isTag | isTag | isTag <;> simp [isTag]
    rw [tree_eq, isSingle, operandsOf, if_neg notMul]
  · have permuted := AtomTree.perm_variadicChildren .mul (termOperands vars term)
    rw [flatten_termOperands (Or.inr rfl)] at permuted
    rw [tree_eq]
    exact permuted

/-- A term is in normal form when no symbol occurs in it twice. -/
theorem normal_termTree_iff
    {term : Term numVars ℚ}
    (isNonzero : term.2 ≠ 0) :
    (termTree vars term).Normal ↔ ((occurring term.1).map vars).Nodup := by
  have length := length_termOperands vars term
  rcases termTree_cases term with
    ⟨only, member, isSingle, tree_eq⟩ | ⟨several, tree_eq⟩
  · have normal : only.Normal := normal_termOperands member
    have short : ((occurring term.1).map vars).length ≤ 1 := by
      rw [isSingle, List.length_singleton] at length
      rw [List.length_map]
      omega
    rw [tree_eq]
    refine iff_of_true normal ?_
    rcases Nat.le_one_iff_eq_zero_or_eq_one.mp short with noneOccurs | oneOccurs
    · rw [List.length_eq_zero_iff.mp noneOccurs]
      exact List.nodup_nil
    · obtain ⟨symbol, isSymbol⟩ := List.length_eq_one_iff.mp oneOccurs
      rw [isSymbol]
      exact List.nodup_singleton symbol
  · have separate :=
      @separate_termOperands_iff _ vars _ isNonzero [] (List.forall_mem_nil _)
        (by rwa [List.append_nil])
    rw [List.append_nil, List.map_nil, List.append_nil,
      List.nodup_map_iff fun _ _ => AtomTree.var.inj] at separate
    have occurs : occurring term.1 ≠ [] := by
      intro noneOccurs
      have written := length_writtenCoefficient term
      rw [noneOccurs, List.length_nil] at length
      omega
    rw [tree_eq, normal_mkMul, flatten_termOperands (Or.inr rfl), separate]
    constructor
    · rintro ⟨-, nodup, -⟩
      exact nodup
    · intro nodup
      exact ⟨fun operand member => normal_termOperands member, nodup,
        fun noneOccurs => absurd noneOccurs occurs⟩

/-- Coefficients multiply and powers of symbols are collected. -/
abbrev Image : Type :=
  ℚ × Multiplicative (Multiset (Symbol × ℕ))

/-- What one factor contributes to a term. -/
def readFactor : AtomTree → Image
  | .num value => (value, 1)
  | .var symbol => (1, .ofAdd {(symbol, 1)})
  | .pow (.var symbol) (.num exponent) => (1, .ofAdd {(symbol, exponent.num.toNat)})
  | _ => 1

/-- The coefficient of a term and its powers of symbols. -/
def readTerm : AtomTree → Image
  | .mul factors => (factors.map readFactor).prod
  | factor => readFactor factor

/-- A term is read operand by operand. -/
theorem readTerm_eq_prod (tree : AtomTree) :
    readTerm tree = ((operandsOf .mul tree).map readFactor).prod := by
  cases tree with
  | mul factors =>
      rfl
  | _ =>
      exact List.prod_singleton.symm

theorem readFactor_powerTree (power : Symbol × ℕ) :
    readFactor (powerTree power) = (1, .ofAdd {power}) := by
  obtain ⟨symbol, exponent⟩ := power
  rw [powerTree]
  split
  · rename_i isOne
    have isOne : exponent = 1 := isOne
    rw [isOne]
    rfl
  · simp [readFactor]

theorem prod_readFactor_monomialTrees
    (monomial : Monomial numVars) :
    ((monomialTrees vars monomial).map readFactor).prod =
      (1, .ofAdd (variablePowers vars monomial)) := by
  rw [monomialTrees_eq_map, variablePowers]
  generalize (occurring monomial).map (fun index => (vars index, monomial.exponent index)) =
    powers
  induction powers with
  | nil =>
      rfl
  | cons power rest inductionHypothesis =>
      rw [List.map_cons, List.map_cons, List.prod_cons, inductionHypothesis,
        readFactor_powerTree, Prod.mk_mul_mk, one_mul, ← ofAdd_add]
      rfl

theorem prod_readFactor_termOperands
    (term : Term numVars ℚ) :
    ((termOperands vars term).map readFactor).prod =
      (term.2, .ofAdd (variablePowers vars term.1)) := by
  have numbersRead :
      ∀ values : List ℚ,
        ((values.map AtomTree.num).map readFactor).prod = ((values.prod, 1) : Image) := by
    intro values
    induction values with
    | nil =>
        rfl
    | cons value rest inductionHypothesis =>
        rw [List.map_cons, List.map_cons, List.prod_cons, inductionHypothesis,
          List.prod_cons]
        rfl
  rw [termOperands_eq, List.map_append, List.prod_append, numbersRead,
    prod_readFactor_monomialTrees, prod_writtenCoefficient, Prod.mk_mul_mk, mul_one, one_mul]

/-- Reading the tree of a term gives its coefficient and powers. -/
theorem readTerm_termTree
    (term : Term numVars ℚ) :
    readTerm (termTree vars term) = (term.2, .ofAdd (variablePowers vars term.1)) := by
  rw [readTerm_eq_prod, ← prod_readFactor_termOperands]
  exact ((perm_operandsOf_termTree term).map readFactor).prod_eq

/-- Terms with equal coefficients and powers of symbols have the same tree. -/
theorem termTree_eq_iff
    {left right : Term numVars ℚ} :
    termTree vars left = termTree vars right ↔
      left.2 = right.2 ∧ variablePowers vars left.1 = variablePowers vars right.1 := by
  constructor
  · intro same
    have read := congrArg readTerm same
    rw [readTerm_termTree, readTerm_termTree, Prod.mk.injEq] at read
    exact ⟨read.1, read.2⟩
  · rintro ⟨sameCoefficient, samePowers⟩
    have permuted := Multiset.coe_eq_coe.mp samePowers
    have sameLength := permuted.length_eq
    rw [List.length_map, List.length_map] at sameLength
    have sameWritten : writtenCoefficient left = writtenCoefficient right := by
      simp only [writtenCoefficient, sameCoefficient, ← List.length_eq_zero_iff, sameLength]
    have operandsPermuted :
        (termOperands vars left).Perm (termOperands vars right) := by
      rw [termOperands_eq, termOperands_eq, sameWritten, monomialTrees_eq_map,
        monomialTrees_eq_map]
      exact List.Perm.append_left _ (permuted.map powerTree)
    rw [termTree, termTree]
    refine unlessSingle_perm operandsPermuted ?_
    exact congrArg AtomTree.mul (variadicChildren_congr (operandsPermuted.flatMap_right _))

/-- A term without variables is a number. -/
theorem numValue?_termTree
    (term : Term numVars ℚ) :
    (termTree vars term).numValue? =
      if occurring term.1 = [] then some term.2 else none := by
  split
  · rename_i noneOccurs
    have operands : termOperands vars term = [.num term.2] := by
      rw [termOperands_eq, writtenCoefficient, if_pos (Or.inl noneOccurs), monomialTrees,
        noneOccurs]
      rfl
    rw [termTree, operands]
    rfl
  · rename_i occurs
    rcases termTree_cases term with
      ⟨only, -, isSingle, tree_eq⟩ | ⟨-, tree_eq⟩
    · have length := length_termOperands vars term
      have positive := List.length_pos_iff.mpr occurs
      rw [isSingle, List.length_singleton] at length
      have notWritten : writtenCoefficient term = [] :=
        List.length_eq_zero_iff.mp (by omega)
      rw [termOperands_eq, notWritten, List.map_nil, List.nil_append] at isSingle
      have member : only ∈ monomialTrees vars term.1 := by
        rw [isSingle]
        exact List.mem_singleton_self only
      rw [tree_eq]
      exact (keptFactor_monomialTrees member).symbolic
    · rw [tree_eq]
      rfl

/-- Numbers come before powers. -/
theorem num_le_powerTree
    (value : ℚ)
    (power : Symbol × ℕ) :
    AtomTree.num value ≤ powerTree power := by
  rw [AtomTree.le_iff_compare, powerTree]
  split
  · exact show Ord.compare 0 1 ≠ .gt by decide
  · exact show Ord.compare 0 4 ≠ .gt by decide

/-- A power with a coefficient is a product of two. -/
theorem mkMul_num_powerTree
    (value : ℚ)
    (power : Symbol × ℕ) :
    mkMul [.num value, powerTree power] = .mul [.num value, powerTree power] := by
  have flat :
      flattenOperands .mul [.num value, powerTree power] =
        [.num value, powerTree power] := by
    apply flattenOperands_eq_self
    intro operand member
    simp only [List.mem_cons, List.not_mem_nil, or_false] at member
    rcases member with rfl | rfl
    · exact AtomCore.AtomTag.noConfusion
    · rcases tag_powerTree power with isTag | isTag <;> simp [isTag]
  rw [mkMul, AtomTree.variadicChildren, flat, List.Pairwise.insertionSort_eq]
  simpa using num_le_powerTree value power

/-- The normalizer splits off the coefficient of a single power only. -/
theorem splitCoefficient_termTree
    {term : Term numVars ℚ}
    (occurs : occurring term.1 ≠ []) :
    splitCoefficient (termTree vars term) =
      if (occurring term.1).length = 1 then
        (termTree vars (term.1, 1), term.2)
      else
        (termTree vars term, 1) := by
  have notProduct :
      ∀ (power : Symbol × ℕ) (coefficient : ℚ) (rest : AtomTree),
        powerTree power ≠ .mul [.num coefficient, rest] := by
    intro power coefficient rest same
    rcases tag_powerTree power with isTag | isTag <;> rw [same] at isTag <;> cases isTag
  split
  · rename_i isSingle
    obtain ⟨index, isOnly⟩ := List.length_eq_one_iff.mp isSingle
    have factors :
        monomialTrees vars term.1 = [powerTree (vars index, term.1.exponent index)] := by
      rw [monomialTrees_eq_map, isOnly]
      rfl
    have bare :
        termTree vars (term.1, 1) = powerTree (vars index, term.1.exponent index) := by
      rw [termTree, termOperands_eq, writtenCoefficient, if_neg (by simp [occurs]), factors]
      rfl
    rw [bare]
    by_cases isOne : term.2 = 1
    · have same : term = (term.1, 1) := Prod.ext rfl isOne
      rw [isOne, same, bare]
      exact AtomTree.splitCoefficient_eq_self (notProduct _)
    · have operands :
          termOperands vars term =
            [.num term.2, powerTree (vars index, term.1.exponent index)] := by
        rw [termOperands_eq, writtenCoefficient, if_pos (Or.inr isOne), factors]
        rfl
      rw [termTree, operands, unlessSingle, mkMul_num_powerTree]
      · rfl
      · simp
  · rename_i notSingle
    apply AtomTree.splitCoefficient_eq_self
    intro coefficient rest same
    have positive := List.length_pos_iff.mpr occurs
    have length := length_termOperands vars term
    have permuted : [.num coefficient, rest].Perm (termOperands vars term) := by
      have spliced := @perm_operandsOf_termTree _ vars term
      rwa [same] at spliced
    have pair := permuted.length_eq
    rw [List.length_cons, List.length_singleton] at pair
    have notWritten : writtenCoefficient term = [] :=
      List.length_eq_zero_iff.mp (by omega)
    rw [termOperands_eq, notWritten, List.map_nil, List.nil_append] at permuted
    have member : AtomTree.num coefficient ∈ monomialTrees vars term.1 :=
      permuted.mem_iff.mp (by simp)
    cases (keptFactor_monomialTrees member).symbolic

/-- The normalizer collects the terms together. -/
def Collide
    (vars : Fin numVars → Symbol)
    (left right : Term numVars ℚ) :
    Prop :=
  variablePowers vars left.1 = variablePowers vars right.1 ∧
    ((occurring left.1).length = 1 ∨ left.2 = right.2)

/-- No symbol occurs twice in a term, and no two terms are collected together. -/
structure TermsApart
    (vars : Fin numVars → Symbol)
    (terms : List (Term numVars ℚ)) :
    Prop where
  symbols : ∀ term ∈ terms, ((occurring term.1).map vars).Nodup
  apart : terms.Pairwise fun left right => ¬Collide vars left right

theorem termsApart_singleton_iff
    {term : Term numVars ℚ} :
    TermsApart vars [term] ↔ ((occurring term.1).map vars).Nodup := by
  constructor
  · intro apart
    exact apart.symbols term (List.mem_singleton_self term)
  · intro nodup
    exact ⟨by simpa using nodup, List.pairwise_singleton _ _⟩

theorem length_occurring_eq
    {left right : Monomial numVars}
    (same : variablePowers vars left = variablePowers vars right) :
    (occurring left).length = (occurring right).length := by
  have sameCard := congrArg Multiset.card same
  simpa [variablePowers] using sameCard

/-- Terms with variables are collected separately when they do not collide. -/
theorem splitCoefficient_ne_iff
    {left right : Term numVars ℚ}
    (leftOccurs : occurring left.1 ≠ [])
    (rightOccurs : occurring right.1 ≠ []) :
    (splitCoefficient (termTree vars left)).1 ≠ (splitCoefficient (termTree vars right)).1 ↔
      ¬Collide vars left right := by
  refine not_congr ?_
  rw [splitCoefficient_termTree leftOccurs, splitCoefficient_termTree rightOccurs, Collide]
  split
  · rename_i leftSingle
    split
    · rename_i rightSingle
      simp only [termTree_eq_iff, leftSingle, true_or, and_true, true_and]
    · rename_i rightSeveral
      simp only [termTree_eq_iff]
      constructor
      · rintro ⟨-, same⟩
        exact absurd ((length_occurring_eq same).symm.trans leftSingle) rightSeveral
      · rintro ⟨same, -⟩
        exact absurd ((length_occurring_eq same).symm.trans leftSingle) rightSeveral
  · rename_i leftSeveral
    split
    · rename_i rightSingle
      simp only [termTree_eq_iff]
      constructor
      · rintro ⟨-, same⟩
        exact absurd ((length_occurring_eq same).trans rightSingle) leftSeveral
      · rintro ⟨same, -⟩
        exact absurd ((length_occurring_eq same).trans rightSingle) leftSeveral
    · simp only [termTree_eq_iff, leftSeveral, false_or, and_comm]

/-- Two different terms are not both numbers. -/
theorem occurring_ne_nil_of_lt
    {left right : Term numVars ℚ}
    (lower : right.1 < left.1) :
    occurring left.1 ≠ [] ∨ occurring right.1 ≠ [] := by
  by_contra neither
  rw [not_or, not_not, not_not, occurring_eq_nil_iff, occurring_eq_nil_iff] at neither
  rw [neither.1, neither.2] at lower
  exact lt_irrefl _ lower

/-- When no two elements have a value, there is at most one value. -/
theorem length_filterMap_le_one
    {α β : Type}
    {value? : α → Option β}
    {elements : List α}
    (apart : elements.Pairwise fun left right => value? left = none ∨ value? right = none) :
    (elements.filterMap value?).length ≤ 1 := by
  induction elements with
  | nil =>
      simp
  | cons first rest inductionHypothesis =>
      obtain ⟨firstApart, restApart⟩ := List.pairwise_cons.mp apart
      cases firstValue : value? first with
      | none =>
          rw [List.filterMap_cons_none firstValue]
          exact inductionHypothesis restApart
      | some value =>
          have noOther : rest.filterMap value? = [] := by
            rw [List.filterMap_eq_nil_iff]
            intro other member
            refine (firstApart other member).resolve_left ?_
            rw [firstValue]
            exact nofun
          rw [List.filterMap_cons_some firstValue, noOther, List.length_singleton]

/-- Several terms are collected when they are apart. -/
theorem separate_termTrees_iff
    (vars : Fin numVars → Symbol)
    {terms : List (Term numVars ℚ)}
    (several : 2 ≤ terms.length)
    (descending : terms.Pairwise fun left right => right.1 < left.1)
    (nonzero : ∀ term ∈ terms, term.2 ≠ 0) :
    sums.Separate (terms.map (termTree vars)) ↔
      terms.Pairwise fun left right => ¬Collide vars left right := by
  have isSymbolic :
      ∀ term : Term numVars ℚ,
        (termTree vars term).numValue? = none ↔ occurring term.1 ≠ [] := by
    intro term
    rw [numValue?_termTree]
    split <;> simp [*]
  have allSymbolic :
      symbolic (terms.map (termTree vars)) =
        (terms.filter fun term => occurring term.1 ≠ []).map (termTree vars) := by
    rw [symbolic, List.filter_map]
    refine congrArg _ (List.filter_congr fun term _ => ?_)
    simp only [Function.comp_apply, isSymbolic]
  have numbersShort : (numbers (terms.map (termTree vars))).length ≤ 1 := by
    rw [numbers, List.filterMap_map]
    refine length_filterMap_le_one (descending.imp fun lower => ?_)
    simp only [Function.comp_apply, isSymbolic]
    exact occurring_ne_nil_of_lt lower
  have keys :
      ((symbolic (terms.map (termTree vars))).map fun tree =>
          (splitCoefficient tree).1).Nodup ↔
        terms.Pairwise fun left right => ¬Collide vars left right := by
    rw [allSymbolic, List.map_map, List.Nodup, List.pairwise_map, List.pairwise_filter]
    constructor
    · intro separate
      refine (descending.and separate).imp ?_
      rintro left right ⟨lower, differ⟩ collide
      have bothOccur : occurring left.1 ≠ [] ∧ occurring right.1 ≠ [] := by
        have sameEmpty : occurring left.1 = [] ↔ occurring right.1 = [] := by
          rw [← List.length_eq_zero_iff, ← List.length_eq_zero_iff,
            length_occurring_eq collide.1]
        rcases occurring_ne_nil_of_lt lower with leftOccurs | rightOccurs
        · exact ⟨leftOccurs, mt sameEmpty.mpr leftOccurs⟩
        · exact ⟨mt sameEmpty.mp rightOccurs, rightOccurs⟩
      exact (splitCoefficient_ne_iff bothOccur.1 bothOccur.2).mp
        (differ (decide_eq_true bothOccur.1) (decide_eq_true bothOccur.2)) collide
    · intro apart
      refine apart.imp ?_
      intro left right noCollision leftOccurs rightOccurs
      exact (splitCoefficient_ne_iff (of_decide_eq_true leftOccurs)
        (of_decide_eq_true rightOccurs)).mpr noCollision
  have splitOf :
      ∀ tree ∈ symbolic (terms.map (termTree vars)),
        ((splitCoefficient tree).2 = 1 → (splitCoefficient tree).1 = tree) ∧
          (splitCoefficient tree).2 ≠ 0 := by
    intro tree member
    rw [allSymbolic] at member
    obtain ⟨term, termMember, rfl⟩ := List.mem_map.mp member
    obtain ⟨inTerms, occurs⟩ := List.mem_filter.mp termMember
    rw [splitCoefficient_termTree (of_decide_eq_true occurs)]
    split
    · refine ⟨fun isOne => ?_, nonzero term inTerms⟩
      have same : term = (term.1, 1) := Prod.ext rfl isOne
      rw [← same]
    · exact ⟨fun _ => rfl, one_ne_zero⟩
  constructor
  · intro separate
    exact keys.mp separate.distinct.keys
  · intro apart
    refine ⟨by simpa using several, ⟨keys.mpr apart, ?_⟩, ?_, numbersShort, ?_⟩
    · exact fun tree member => (splitOf tree member).1
    · exact fun tree member => (splitOf tree member).2
    · intro value member
      rw [numbers, List.filterMap_map] at member
      obtain ⟨term, inTerms, isValue⟩ := List.mem_filterMap.mp member
      rw [Function.comp_apply, numValue?_termTree] at isValue
      split at isValue
      · rw [← Option.some.inj isValue]
        exact ⟨nonzero term inTerms, (Option.some_ne_none term.2).symm⟩
      · cases isValue

/-- Terms are no sums. -/
theorem tag_termTree
    (term : Term numVars ℚ) :
    (termTree vars term).tag ≠ .add := by
  rcases termTree_cases term with ⟨only, member, -, tree_eq⟩ | ⟨-, tree_eq⟩
  · rw [tree_eq]
    rcases tag_termOperands member with isTag | isTag | isTag <;> simp [isTag]
  · rw [tree_eq]
    exact AtomCore.AtomTag.noConfusion

theorem flatten_termTrees
    (terms : List (Term numVars ℚ)) :
    flattenOperands .add (terms.map (termTree vars)) = terms.map (termTree vars) := by
  apply flattenOperands_eq_self
  intro tree member
  obtain ⟨term, -, rfl⟩ := List.mem_map.mp member
  exact tag_termTree term

/-- A polynomial that is not zero is written as one term or as a sum of several. -/
theorem polynomialTree_cases
    {polynomial : MachinePolynomial vars ℚ}
    (isNonzero : polynomial.isZero = false) :
    (∃ term,
      polynomial.terms = [term] ∧ polynomialTree polynomial = termTree vars term) ∨
      2 ≤ polynomial.terms.length ∧
      polynomialTree polynomial = mkAdd (polynomial.terms.map (termTree vars)) := by
  have nonempty : polynomial.terms.map (termTree vars) ≠ [] := by
    intro isNil
    have isZero : polynomial.isZero = true :=
      List.isEmpty_iff.mpr (List.map_eq_nil_iff.mp isNil)
    rw [isZero] at isNonzero
    cases isNonzero
  rw [polynomialTree, if_neg (Bool.eq_false_iff.mp isNonzero)]
  rcases unlessSingle_cases id mkAdd nonempty with
    ⟨only, isSingle, tree_eq⟩ | ⟨several, tree_eq⟩
  · obtain ⟨term, termsSingle, rfl⟩ := List.map_eq_singleton_iff.mp isSingle
    exact Or.inl ⟨term, termsSingle, tree_eq⟩
  · rw [List.length_map] at several
    exact Or.inr ⟨several, tree_eq⟩

/-- The written polynomial is in normal form when its terms are apart. -/
theorem normal_polynomialTree_iff
    (polynomial : MachinePolynomial vars ℚ) :
    (polynomialTree polynomial).Normal ↔ TermsApart vars polynomial.terms := by
  cases isNonzero : polynomial.isZero with
  | true =>
      have noTerms : polynomial.terms = [] := List.isEmpty_iff.mp isNonzero
      rw [polynomialTree, if_pos isNonzero, noTerms]
      exact iff_of_true (.num 0) ⟨List.forall_mem_nil _, List.Pairwise.nil⟩
  | false =>
      rcases polynomialTree_cases isNonzero with
        ⟨term, isSingle, tree_eq⟩ | ⟨several, tree_eq⟩
      · have isNonzero : term.2 ≠ 0 := polynomial.nonzero term (by simp [isSingle])
        rw [tree_eq, normal_termTree_iff isNonzero, isSingle, termsApart_singleton_iff]
      · have separate :=
          separate_termTrees_iff vars several polynomial.descending polynomial.nonzero
        have allNormal :
            (∀ tree ∈ polynomial.terms.map (termTree vars), tree.Normal) ↔
              ∀ term ∈ polynomial.terms, ((occurring term.1).map vars).Nodup := by
          rw [List.forall_mem_map]
          exact forall₂_congr fun term member =>
            normal_termTree_iff (polynomial.nonzero term member)
        rw [tree_eq, normal_mkAdd, flatten_termTrees, allNormal, separate]
        constructor
        · rintro ⟨symbols, apart⟩
          exact ⟨symbols, apart⟩
        · rintro ⟨symbols, apart⟩
          exact ⟨symbols, apart⟩

end PolyCore
