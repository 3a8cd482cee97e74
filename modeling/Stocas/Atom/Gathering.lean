import Mathlib.Algebra.Group.Subsemigroup.Defs
import Mathlib.Data.List.Pairwise
import Stocas.Atom.NormalForm

namespace AtomCore

namespace AtomTree

/-!
# Operands that are collected at once

Collection totals the operands of each key and hands one piece for each total to a
builder, which splices nested nodes and collects nothing.  This module gives conditions
on the operands under which the pieces are still collected after that.
-/

variable {collector : Collector}

@[simp] theorem symbolic_num_cons
    (value : ℚ)
    (rest : List AtomTree) :
    symbolic (.num value :: rest) = symbolic rest := by
  simp [symbolic, numValue?]

@[simp] theorem numbers_num_cons
    (value : ℚ)
    (rest : List AtomTree) :
    numbers (.num value :: rest) = value :: numbers rest := by
  simp [numbers, numValue?]

theorem numbers_singleton
    {operand : AtomTree}
    (isSymbolic : operand.numValue? = none) :
    numbers [operand] = [] := by
  simp [numbers, isSymbolic]

section Totals

/-- What the operands with a key amount to together. -/
def Collector.total
    (collector : Collector)
    (operands : List AtomTree)
    (key : AtomTree) : ℚ :=
  (((symbolic operands).filter fun operand => (collector.split operand).1 = key).map
    fun operand => (collector.split operand).2).sum

theorem Collector.total_of_append
    (operands others : List AtomTree)
    (key : AtomTree) :
    collector.total (operands ++ others) key =
      collector.total operands key + collector.total others key := by
  rw [Collector.total, symbolic_append, List.filter_append, List.map_append, List.sum_append]
  rfl

theorem Collector.total_of_perm
    {operands others : List AtomTree}
    (same : operands.Perm others)
    (key : AtomTree) :
    collector.total operands key = collector.total others key :=
  (((same.filter _).filter _).map _).sum_eq

/-- Operands with other keys do not count. -/
theorem Collector.total_eq_zero
    {operands : List AtomTree}
    {key : AtomTree}
    (other : ∀ operand ∈ symbolic operands, (collector.split operand).1 ≠ key) :
    collector.total operands key = 0 := by
  have none :
      (symbolic operands).filter (fun operand => (collector.split operand).1 = key) = [] := by
    rw [List.filter_eq_nil_iff]
    intro operand member same
    exact other operand member (by simpa using same)
  rw [Collector.total, none, List.map_nil, List.sum_nil]

/-- Amounts that are closed under addition add up to one of them. -/
theorem Collector.total_mem
    {operands : List AtomTree}
    {key : AtomTree}
    {amounts : AddSubsemigroup ℚ}
    (some : ∃ operand ∈ symbolic operands, (collector.split operand).1 = key)
    (every :
      ∀ operand ∈ symbolic operands, (collector.split operand).1 = key →
        (collector.split operand).2 ∈ amounts) :
    collector.total operands key ∈ amounts := by
  obtain ⟨operand, member, same⟩ := some
  apply List.sum_induction_nonempty (· ∈ amounts) (fun _ _ => amounts.add_mem)
  · intro none
    have isLike :
        operand ∈ (symbolic operands).filter fun given => (collector.split given).1 = key :=
      List.mem_filter.mpr ⟨member, by simpa using same⟩
    rw [List.map_eq_nil_iff.mp none] at isLike
    exact List.not_mem_nil isLike
  · intro amount amountMember
    obtain ⟨given, givenMember, rfl⟩ := List.mem_map.mp amountMember
    obtain ⟨isSymbolic, isKey⟩ := List.mem_filter.mp givenMember
    exact every given isSymbolic (of_decide_eq_true isKey)

/-- A symbolic operand adds its amount to the total of its key. -/
theorem Collector.total_of_singleton
    {operand : AtomTree}
    (isSymbolic : operand.numValue? = none)
    (key : AtomTree) :
    collector.total [operand] key =
      if (collector.split operand).1 = key then (collector.split operand).2 else 0 := by
  rw [Collector.total, symbolic_singleton isSymbolic]
  split_ifs with same
  · simp [same]
  · simp [same]

theorem Collector.total_number
    (value : ℚ)
    (key : AtomTree) :
    collector.total [.num value] key = 0 := by
  apply Collector.total_eq_zero
  simp [symbolic, numValue?]

/-- Operands that are their own key are counted. -/
theorem Collector.total_eq_count
    {operands : List AtomTree}
    {key : AtomTree}
    (isSymbolic : key.numValue? = none)
    (own : collector.split key = (key, 1))
    (only :
      ∀ operand ∈ symbolic operands, (collector.split operand).1 = key → operand = key) :
    collector.total operands key = (operands.count key : ℚ) := by
  induction operands with
  | nil =>
      rfl
  | cons operand rest inductionHypothesis =>
      have later :
          ∀ other ∈ symbolic rest, (collector.split other).1 = key → other = key := by
        intro other member
        apply only
        rw [← List.singleton_append, symbolic_append]
        exact List.mem_append_right _ member
      rw [← List.singleton_append, Collector.total_of_append, inductionHypothesis later,
        List.count_append]
      push_cast
      congr 1
      cases isNumber : operand.numValue? with
      | some value =>
          have different : operand ≠ key := by
            rintro rfl
            rw [isSymbolic] at isNumber
            cases isNumber
          rw [eq_num_of_numValue? isNumber] at different ⊢
          rw [Collector.total_number, List.count_singleton,
            if_neg (by simpa using different), Nat.cast_zero]
      | none =>
          rw [Collector.total_of_singleton isNumber, List.count_singleton]
          by_cases same : operand = key
          · rw [same, own]
            simp
          · have otherKey : (collector.split operand).1 ≠ key := by
              intro sameKey
              apply same
              apply only operand _ sameKey
              rw [← List.singleton_append, symbolic_append, symbolic_singleton isNumber]
              exact List.mem_append_left _ List.mem_cons_self
            rw [if_neg otherKey, if_neg (by simpa using same), Nat.cast_zero]

end Totals

section Tally

/-- The entries are the keys of the operands with their totals. -/
structure Collector.Tallied
    (collector : Collector)
    (operands : List AtomTree)
    (entries : Entries) : Prop where
  sorted : OrderedMap.Sorted entries
  total : ∀ entry ∈ entries, entry.2 = collector.total operands entry.1
  key :
    ∀ entry ∈ entries, ∃ operand ∈ symbolic operands,
      (collector.split operand).1 = entry.1
  entered :
    ∀ operand ∈ symbolic operands, ∃ entry ∈ entries,
      entry.1 = (collector.split operand).1

theorem Collector.tallied_nil :
    collector.Tallied [] [] where
  sorted := List.Pairwise.nil
  total := nofun
  key := nofun
  entered := nofun

variable {operands : List AtomTree} {entries : Entries}

/-- A number changes no total. -/
theorem Collector.Tallied.number
    (tallied : collector.Tallied operands entries)
    (value : ℚ) :
    collector.Tallied (operands ++ [.num value]) entries := by
  have sameSymbolic : symbolic (operands ++ [.num value]) = symbolic operands := by
    simp [symbolic, numValue?]
  refine ⟨tallied.sorted, ?_, ?_, ?_⟩
  · intro entry member
    rw [Collector.total_of_append, Collector.total_number, add_zero]
    exact tallied.total entry member
  · rw [sameSymbolic]
    exact tallied.key
  · rw [sameSymbolic]
    exact tallied.entered

/-- An operand without an entry of its key adds the first amount to it. -/
theorem Collector.Tallied.total_of_absent
    (tallied : collector.Tallied operands entries)
    {key : AtomTree}
    (absent : key ∉ entries.map Prod.fst) :
    collector.total operands key = 0 := by
  apply Collector.total_eq_zero
  intro other otherMember same
  obtain ⟨earlier, earlierMember, isKey⟩ := tallied.entered other otherMember
  apply absent
  rw [← same, ← isKey]
  exact List.mem_map_of_mem earlierMember

/-- A symbolic operand makes an entry, or is added to the entry of its key. -/
theorem Collector.Tallied.symbolic
    (tallied : collector.Tallied operands entries)
    {operand : AtomTree}
    (isSymbolic : operand.numValue? = none) :
    collector.Tallied (operands ++ [operand])
      (OrderedMap.accumulate Ord.compare (collector.split operand).1
        (collector.split operand).2 entries) := by
  have moreSymbolic : ∀ other,
      other ∈ AtomTree.symbolic (operands ++ [operand]) ↔
        other ∈ AtomTree.symbolic operands ∨ other = operand := by
    intro other
    rw [symbolic_append, symbolic_singleton isSymbolic, List.mem_append, List.mem_singleton]
  refine ⟨OrderedMap.sorted_accumulate tallied.sorted _ _, ?_, ?_, ?_⟩
  · intro entry member
    rw [Collector.total_of_append, Collector.total_of_singleton isSymbolic]
    rcases OrderedMap.mem_accumulate tallied.sorted member with
      ⟨different, older⟩ | ⟨isKey, ⟨old, older, grown⟩ | ⟨absent, fresh⟩⟩
    · rw [if_neg different.symm, add_zero]
      exact tallied.total entry older
    · have oldTotal : old = collector.total operands (collector.split operand).1 :=
        tallied.total _ older
      rw [isKey, if_pos rfl, grown, oldTotal]
    · rw [isKey, if_pos rfl, fresh, tallied.total_of_absent absent, zero_add]
  · intro entry member
    rcases (OrderedMap.mem_keys_accumulate_iff tallied.sorted).mp
      (List.mem_map_of_mem member) with isKey | older
    · exact ⟨operand, (moreSymbolic operand).mpr (Or.inr rfl), isKey.symm⟩
    · obtain ⟨earlier, earlierMember, same⟩ := List.mem_map.mp older
      obtain ⟨other, otherMember, isKey⟩ := tallied.key earlier earlierMember
      exact ⟨other, (moreSymbolic other).mpr (Or.inl otherMember), isKey.trans same⟩
  · intro other otherMember
    have isKey : (collector.split other).1 = (collector.split operand).1 ∨
        (collector.split other).1 ∈ entries.map Prod.fst := by
      rcases (moreSymbolic other).mp otherMember with earlier | rfl
      · obtain ⟨entry, entryMember, same⟩ := tallied.entered other earlier
        exact Or.inr (List.mem_map.mpr ⟨entry, entryMember, same⟩)
      · exact Or.inl rfl
    exact List.mem_map.mp ((OrderedMap.mem_keys_accumulate_iff tallied.sorted).mpr isKey)

/-- The loop tallies the operands, with their number apart. -/
theorem Collector.Tallied.collect
    {seen rest : List AtomTree}
    {entries entriesAfter : Entries}
    {constant constantAfter : ℚ}
    (before : collector.Tallied seen entries)
    (collects :
      collector.collect rest entries constant = .ok (entriesAfter, constantAfter)) :
    collector.Tallied (seen ++ rest) entriesAfter := by
  induction rest generalizing seen entries constant with
  | nil =>
      cases collects
      rwa [List.append_nil]
  | cons operand rest inductionHypothesis =>
      rw [List.append_cons]
      simp only [Collector.collect] at collects
      cases isNumber : operand.numValue? with
      | some value =>
          rw [isNumber] at collects
          simp only at collects
          split_ifs at collects
          rw [eq_num_of_numValue? isNumber]
          exact inductionHypothesis (before.number value) collects
      | none =>
          rw [isNumber] at collects
          exact inductionHypothesis (before.symbolic isNumber) collects

end Tally

/-! The pieces of a collection, and what the builder makes of them. -/

section Pieces

/-- Whether operands are collected does not depend on their order. -/
private theorem separate_perm
    {operands others : List AtomTree}
    (same : operands.Perm others)
    (separate : collector.Separate operands) :
    collector.Separate others := by
  have sameSymbolic : (symbolic operands).Perm (symbolic others) :=
    same.filter _
  have sameNumbers : (numbers operands).Perm (numbers others) :=
    same.filterMap _
  obtain ⟨several, ⟨keys, unit⟩, amounts, oneNumber, number⟩ := separate
  refine ⟨?_, ⟨?_, ?_⟩, ?_, ?_, ?_⟩
  · rwa [← same.length_eq]
  · exact (sameSymbolic.map _).nodup_iff.mp keys
  · exact fun operand member =>
      unit operand (sameSymbolic.mem_iff.mpr member)
  · exact fun operand member =>
      amounts operand (sameSymbolic.mem_iff.mpr member)
  · rwa [← sameNumbers.length_eq]
  · exact fun value member =>
      number value (sameNumbers.mem_iff.mpr member)

/-- A built node is normal when its spliced operands are and are collected. -/
theorem normal_of_perm
    {operands spliced : List AtomTree}
    (same : operands.Perm spliced) :
    ((∀ operand ∈ operands, operand.Normal) ∧ collector.Separate operands) ↔
      (∀ operand ∈ spliced, operand.Normal) ∧ collector.Separate spliced := by
  constructor
  · rintro ⟨normal, separate⟩
    exact ⟨fun operand member => normal operand (same.mem_iff.mpr member),
      separate_perm same separate⟩
  · rintro ⟨normal, separate⟩
    exact ⟨fun operand member => normal operand (same.mem_iff.mp member),
      separate_perm same.symm separate⟩

/-- A built sum is normal when its spliced terms are and are collected. -/
theorem normal_mkAdd
    (operands : List AtomTree) :
    (mkAdd operands).Normal ↔
      (∀ operand ∈ flattenOperands .add operands, operand.Normal) ∧
        sums.Separate (flattenOperands .add operands) := by
  rw [← normal_of_perm (perm_variadicChildren .add operands), mkAdd]
  constructor
  · rintro ⟨⟩
    rename_i normal separate
    exact ⟨normal, separate⟩
  · rintro ⟨normal, separate⟩
    exact .add normal separate

/-- A built product is normal when its spliced factors are and are collected. -/
theorem normal_mkMul
    (operands : List AtomTree) :
    (mkMul operands).Normal ↔
      (∀ operand ∈ flattenOperands .mul operands, operand.Normal) ∧
        products.Separate (flattenOperands .mul operands) := by
  rw [← normal_of_perm (perm_variadicChildren .mul operands), mkMul]
  constructor
  · rintro ⟨⟩
    rename_i normal separate
    exact ⟨normal, separate⟩
  · rintro ⟨normal, separate⟩
    exact .mul normal separate

/-- A key that can stand among the operands: it is symbolic, kept and its own key. -/
structure Collector.Plain (collector : Collector) (key : AtomTree) : Prop where
  isSymbolic : key.numValue? = none
  kept : key.tag ≠ collector.tag
  own : collector.split key = (key, 1)

/-- A piece that stays among the operands as it is. -/
structure Collector.Stable (collector : Collector) (piece : AtomTree) : Prop where
  normal : piece.Normal
  isSymbolic : piece.numValue? = none
  kept : piece.tag ≠ collector.tag
  amount : (collector.split piece).2 ≠ 0
  unit : (collector.split piece).2 = 1 → (collector.split piece).1 = piece

end Pieces

/-! Products are collected at once when no base that adds up to 1 has to be spliced. -/

section Gathers

/-- What collecting normal operands once needs: keys that amount to 1 are plain. -/
structure Collector.Gathers
    (collector : Collector)
    (operands : List AtomTree) : Prop where
  normal : ∀ operand ∈ operands, operand.Normal
  plain :
    ∀ operand ∈ symbolic operands,
      collector.Plain (collector.split operand).1 ∨
        collector.total operands (collector.split operand).1 ≠ 1

/-- A kept power is normal when its parts are. -/
theorem normal_pow_iff
    {base exponent : AtomTree}
    (notZero : exponent ≠ .num 0)
    (notOne : exponent ≠ .num 1) :
    (AtomTree.pow base exponent).Normal ↔ base.Normal ∧ exponent.Normal := by
  constructor
  · rintro ⟨⟩
    rename_i baseNormal exponentNormal _ _
    exact ⟨baseNormal, exponentNormal⟩
  · rintro ⟨baseNormal, exponentNormal⟩
    exact .pow baseNormal exponentNormal notZero notOne

/-- The base of a normal factor is normal, and its exponent is neither 0 nor an extra 1. -/
theorem normal_splitPower
    {operand : AtomTree}
    (normal : operand.Normal) :
    (splitPower operand).1.Normal ∧ (splitPower operand).2 ≠ 0 ∧
      ((splitPower operand).2 = 1 → (splitPower operand).1 = operand) := by
  rw [splitPower.eq_def]
  split
  · cases normal with
    | pow baseNormal _ notZero notOne =>
        refine ⟨baseNormal, ?_, ?_⟩
        · rintro rfl
          exact notZero rfl
        · rintro rfl
          exact absurd rfl notOne
  · exact ⟨normal, one_ne_zero, fun _ => rfl⟩

/-- A power of a normal base is a stable factor. -/
theorem stable_power
    {base : AtomTree}
    (normal : base.Normal)
    {exponent : ℚ}
    (notZero : exponent ≠ 0)
    (notOne : exponent ≠ 1) :
    products.Stable (.pow base (.num exponent)) where
  normal := .pow normal (.num exponent) (by simpa using notZero) (by simpa using notOne)
  isSymbolic := rfl
  kept := nofun
  amount := notZero
  unit := fun isOne => absurd isOne notOne

/-- A plain normal key is stable. -/
theorem Collector.Plain.stable
    {key : AtomTree}
    (plain : collector.Plain key)
    (normal : key.Normal) :
    collector.Stable key where
  normal := normal
  isSymbolic := plain.isSymbolic
  kept := plain.kept
  amount := by
    rw [plain.own]
    exact one_ne_zero
  unit := fun _ => by rw [plain.own]

/-- The pieces of an entry are none, the key itself, or the rebuilt operand. -/
theorem mem_rebuilt
    {entry : AtomTree × ℚ}
    {piece : AtomTree} :
    piece ∈ collector.rebuilt entry ↔
      entry.2 = 1 ∧ piece = entry.1 ∨
        entry.2 ≠ 0 ∧ entry.2 ≠ 1 ∧ piece = collector.rebuild entry.1 entry.2 := by
  rw [Collector.rebuilt]
  split_ifs with isZero isOne
  · simp [isZero]
  · simp [isOne]
  · simp [isZero, isOne]

/-- The pieces of gathered factors are stable, and keep their keys. -/
theorem stable_of_gathers
    {operands : List AtomTree}
    {entries : Entries}
    (gathers : products.Gathers operands)
    (tallied : products.Tallied operands entries)
    {entry : AtomTree × ℚ}
    (member : entry ∈ entries)
    {piece : AtomTree}
    (pieceMember : piece ∈ products.rebuilt entry) :
    products.Stable piece ∧ (products.split piece).1 = entry.1 := by
  obtain ⟨operand, operandMember, same⟩ := tallied.key entry member
  have keyNormal : entry.1.Normal := by
    rw [← same]
    exact (normal_splitPower (gathers.normal operand (List.mem_of_mem_filter operandMember))).1
  rcases mem_rebuilt.mp pieceMember with ⟨isOne, rfl⟩ | ⟨notZero, notOne, rfl⟩
  · have plain := gathers.plain operand operandMember
    rw [same, ← tallied.total entry member] at plain
    have keyPlain := plain.resolve_right (not_not.mpr isOne)
    exact ⟨keyPlain.stable keyNormal, by rw [keyPlain.own]⟩
  · exact ⟨stable_power keyNormal notZero notOne, rfl⟩

end Gathers

/-!
A sum has one more trap: a product of a number and several factors is a key of its own,
with the number in it.
-/

section Monomials

/-- A product with a number that `split_coefficient` does not split. -/
def LongMonomial (tree : AtomTree) : Prop :=
  tree.tag = .mul ∧ numbers tree.children ≠ [] ∧ splitCoefficient tree = (tree, 1)

/-- A product without a number. -/
def NumberFree (tree : AtomTree) : Prop :=
  tree.tag = .mul ∧ numbers tree.children = []

/-- What adding normal terms up once needs. -/
structure SumsUp (terms : List AtomTree) : Prop extends sums.Gathers terms where
  /-- A monomial with a coefficient occurs once. -/
  once : ∀ term ∈ terms, LongMonomial term → terms.count term = 1
  /-- No term is what the like terms of a product add up to. -/
  fresh : ∀ term ∈ terms, NumberFree term → sums.rebuild term (sums.total terms term) ∉ terms

/-- Terms are split into a number and a rest, or are their own key. -/
theorem splitCoefficient_cases
    (tree : AtomTree) :
    splitCoefficient tree = (tree, 1) ∨
      ∃ coefficient rest, tree = .mul [.num coefficient, rest] ∧
        splitCoefficient tree = (rest, coefficient) := by
  rw [splitCoefficient.eq_def]
  split
  · exact Or.inr ⟨_, _, rfl, rfl⟩
  · exact Or.inl rfl

/-- A product that is the key of a canonical term is this term. -/
theorem eq_of_mul_key
    {operand : AtomTree}
    (canonical : operand.Canonical)
    (isProduct : (splitCoefficient operand).1.tag = .mul) :
    splitCoefficient operand = (operand, 1) := by
  rcases splitCoefficient_cases operand with own | ⟨coefficient, rest, rfl, split⟩
  · exact own
  · rw [split] at isProduct
    cases canonical with
    | mul _ flat _ =>
        exact absurd isProduct (flat rest (by simp))

theorem num_le_of_symbolic
    (value : ℚ)
    {tree : AtomTree}
    (isSymbolic : tree.numValue? = none) :
    AtomTree.num value ≤ tree := by
  have different : (AtomTree.num value).tag ≠ tree.tag := by
    intro same
    cases tree with
    | num other =>
        cases isSymbolic
    | var | add | mul | pow | func =>
        cases same
  rw [le_iff_compare, compare_of_tag_ne different]
  intro isGreater
  exact Nat.not_lt_zero _ (compare_gt_iff_gt.mp isGreater)

/-- A number times one factor keeps both in this order. -/
theorem rebuild_of_ne_mul
    (amount : ℚ)
    {key : AtomTree}
    (isSymbolic : key.numValue? = none)
    (notProduct : key.tag ≠ .mul) :
    sums.rebuild key amount = .mul [.num amount, key] := by
  have flat : flattenOperands .mul [.num amount, key] = [.num amount, key] := by
    apply flattenOperands_eq_self
    intro operand member
    rcases List.mem_pair.mp member with rfl | rfl
    · exact nofun
    · exact notProduct
  change mkMul _ = _
  rw [mkMul, variadicChildren, flat, List.insertionSort_cons, List.insertionSort_cons,
    List.insertionSort_nil, List.orderedInsert_nil, List.orderedInsert_cons,
    if_pos (num_le_of_symbolic amount isSymbolic)]

/-- The factors of a number times a product. -/
theorem perm_rebuild_children
    (amount : ℚ)
    {key : AtomTree}
    (isProduct : key.tag = .mul) :
    (sums.rebuild key amount).children.Perm (.num amount :: key.children) := by
  have spliced := perm_variadicChildren .mul [.num amount, key]
  have number : (AtomTree.num amount).tag ≠ .mul := nofun
  simp only [flattenOperands, List.flatMap_cons, List.flatMap_nil, operandsOf, number,
    isProduct, if_true, if_false, List.append_nil, List.singleton_append] at spliced
  exact spliced

/-- The product of a number and a product has at least as many factors and one number more. -/
theorem numbers_rebuild
    (amount : ℚ)
    {key : AtomTree}
    (numberFree : NumberFree key) :
    numbers (sums.rebuild key amount).children = [amount] := by
  have same := (perm_rebuild_children amount numberFree.1).filterMap numValue?
  have values :
      (AtomTree.num amount :: key.children).filterMap numValue? = [amount] := by
    rw [List.filterMap_cons]
    exact congrArg (amount :: ·) numberFree.2
  rw [values] at same
  exact List.perm_singleton.mp same

section Stability

variable {terms : List AtomTree}

/-- A normal product is not a number times another one, and one number is in it at most. -/
theorem normal_mul_iff
    {factors : List AtomTree} :
    (AtomTree.mul factors).Normal ↔
      (∀ factor ∈ factors, factor.Normal) ∧ products.Separate factors := by
  constructor
  · rintro ⟨⟩
    rename_i normal separate
    exact ⟨normal, separate⟩
  · rintro ⟨normal, separate⟩
    exact .mul normal separate

/-- Terms with the key of a product are this product. -/
theorem total_eq_count_of_mul
    (canonical : ∀ term ∈ terms, term.Canonical)
    {term : AtomTree}
    (member : term ∈ terms)
    (isProduct : (splitCoefficient term).1.tag = .mul) :
    sums.split term = (term, 1) ∧ sums.total terms term = (terms.count term : ℚ) := by
  have own : sums.split term = (term, 1) := eq_of_mul_key (canonical term member) isProduct
  have tag : term.tag = .mul := by
    rw [show splitCoefficient term = (term, 1) from own] at isProduct
    exact isProduct
  have isSymbolic : term.numValue? = none := by
    cases term <;> first | rfl | cases tag
  refine ⟨own, Collector.total_eq_count isSymbolic own ?_⟩
  intro operand operandMember same
  have ownKey := eq_of_mul_key (canonical operand (List.mem_of_mem_filter operandMember))
    (by rw [show (splitCoefficient operand).1 = term from same]; exact tag)
  rw [← same]
  exact (congrArg Prod.fst ownKey).symm

/-- A product without a number is its own key. -/
theorem NumberFree.own
    {tree : AtomTree}
    (free : NumberFree tree) :
    splitCoefficient tree = (tree, 1) := by
  rcases splitCoefficient_cases tree with own | ⟨coefficient, rest, rfl, -⟩
  · exact own
  · have none := free.2
    rw [children, numbers_num_cons] at none
    cases none

/-- What a number times a term is for the collection it came from. -/
theorem split_rebuild
    {key : AtomTree}
    (normal : key.Normal)
    (isSymbolic : key.numValue? = none)
    (notLong : key.tag = .mul → NumberFree key)
    (amount : ℚ) :
    sums.split (sums.rebuild key amount) = (key, amount) ∨
      NumberFree key ∧
        sums.split (sums.rebuild key amount) = (sums.rebuild key amount, 1) := by
  by_cases isProduct : key.tag = .mul
  · right
    refine ⟨notLong isProduct, ?_⟩
    have parts := normal
    rw [eq_mul_of_children isProduct rfl, normal_mul_iff] at parts
    have several := parts.2.several
    rcases splitCoefficient_cases (sums.rebuild key amount) with
      own | ⟨coefficient, rest, isPair, -⟩
    · exact own
    · have lengths := (perm_rebuild_children amount isProduct).length_eq
      rw [isPair] at lengths
      simp only [children, List.length_cons, List.length_nil] at lengths several
      omega
  · left
    rw [rebuild_of_ne_mul amount isSymbolic isProduct]
    rfl

/-- The number of a normal product is neither 0 nor 1. -/
theorem amount_of_normal_rebuild
    {key : AtomTree}
    (numberFree : NumberFree key)
    {amount : ℚ}
    (normal : (sums.rebuild key amount).Normal) :
    amount ≠ 0 ∧ amount ≠ 1 := by
  have onlyNumber := numbers_rebuild amount numberFree
  rw [@eq_mul_of_children (sums.rebuild key amount) _ rfl rfl, normal_mul_iff] at normal
  have ordinary := normal.2.number amount (by rw [onlyNumber]; exact List.mem_cons_self)
  exact ⟨fun isZero => ordinary.2 (by rw [isZero]; rfl), ordinary.1⟩

/-- No number makes a sum vanish. -/
theorem absorbing_sums
    (value : ℚ) :
    sums.absorbing ≠ some value := by
  rintro ⟨⟩

/-- A term that like products add up to is a monomial with a coefficient. -/
theorem longMonomial_rebuild
    {key : AtomTree}
    (normal : key.Normal)
    (free : NumberFree key)
    {amount : ℚ}
    (canonical : (sums.rebuild key amount).Canonical) :
    LongMonomial (sums.rebuild key amount) := by
  have isSymbolic : key.numValue? = none := by
    rw [eq_mul_of_children free.1 rfl]
    rfl
  refine ⟨rfl, ?_, ?_⟩
  · rw [numbers_rebuild _ free]
    exact List.cons_ne_nil _ _
  · apply eq_of_mul_key canonical
    rcases split_rebuild normal isSymbolic (fun _ => free) amount with split | ⟨-, split⟩
    · rw [show splitCoefficient _ = _ from split]
      exact free.1
    · rw [show splitCoefficient _ = _ from split]
      rfl

end Stability

end Monomials

end AtomTree

end AtomCore
