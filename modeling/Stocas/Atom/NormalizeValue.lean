import Mathlib.Data.Rat.Cast.Lemmas
import Mathlib.Data.Rat.Lemmas
import Mathlib.Tactic.NormNum
import Stocas.Atom.Evaluation
import Stocas.Atom.NormalizeStore

namespace AtomCore

/-!
# Normalization keeps values

What a collector does is stated once for a commutative monoid: operands denote
elements, a key with an amount denotes an element, and amounts of one key
combine as the elements multiply.  Sums instantiate it with the additive group of
a field, products with its multiplication and the laws of powers.
-/

/-- Powers with rational exponents, as far as they are defined. -/
structure Interpretation.PowerLaws
    {K : Type*}
    [Field K]
    (meaning : Interpretation K) : Prop where
  power_zero : ∀ base, meaning.power base 0 = some 1
  power_one : ∀ base, meaning.power base 1 = some base
  power_add :
    ∀ {base first second : K} {r s : ℚ},
      meaning.power base r = some first →
      meaning.power base s = some second →
      meaning.power base ((r + s : ℚ) : K) = some (first * second)

namespace AtomTree

open Aggregate (Total total_cons total_append total_singleton)

/-- What the operands and entries of a collector denote in a monoid. -/
structure Collector.Meaning
    (collector : Collector)
    (M : Type*)
    [CommMonoid M] where
  value : AtomTree → M → Prop
  number : ℚ → M
  amount : AtomTree × ℚ → M → Prop
  value_num : ∀ {n : ℚ} {m : M}, value (.num n) m ↔ m = number n
  number_neutral : number collector.neutral = 1
  number_combine :
    ∀ n n' : ℚ, number (collector.combine n n') = number n * number n'
  number_absorbing :
    ∀ {n : ℚ}, collector.absorbing = some n → ∀ m : M, number n * m = number n
  amount_split :
    ∀ {operand : AtomTree} {m : M},
      value operand m → amount (collector.split operand) m
  amount_add :
    ∀ {key : AtomTree} {a a' : ℚ} {m m' : M},
      amount (key, a) m → amount (key, a') m' → amount (key, a + a') (m * m')
  amount_zero : ∀ {key : AtomTree} {m : M}, amount (key, 0) m → m = 1
  amount_one : ∀ {key : AtomTree} {m : M}, amount (key, 1) m → value key m
  value_rebuild :
    ∀ {key : AtomTree} {a : ℚ} {m : M},
      amount (key, a) m → value (collector.rebuild key a) m
  value_build :
    ∀ {operands : List AtomTree} {m : M},
      Total value operands m → value (collector.build operands) m

namespace Collector.Meaning

variable {collector : Collector} {M : Type*} [CommMonoid M]

/-- The loop moves the total of the operands into entries and constant. -/
private theorem collect
    (meaning : collector.Meaning M)
    {operands : List AtomTree}
    {total : M}
    (operandsTotal : Total meaning.value operands total)
    {entries : Entries}
    {entriesTotal : M}
    (before : Total meaning.amount entries entriesTotal)
    (constant : ℚ) :
    match collector.collect operands entries constant with
    | .error n =>
        meaning.number n = entriesTotal * meaning.number constant * total
    | .ok (entriesAfter, constantAfter) =>
        ∃ after,
          Total meaning.amount entriesAfter after ∧
            after * meaning.number constantAfter =
              entriesTotal * meaning.number constant * total := by
  induction operands generalizing entries entriesTotal constant total with
  | nil =>
      rw [Aggregate.total_nil] at operandsTotal
      exact ⟨entriesTotal, before, by rw [operandsTotal, mul_one]⟩
  | cons operand rest inductionHypothesis =>
      obtain ⟨value, later, denoted, restTotal, rfl⟩ :=
        total_cons.mp operandsTotal
      simp only [Collector.collect]
      cases isNumber : operand.numValue? with
      | some n =>
          rw [eq_num_of_numValue? isNumber, meaning.value_num] at denoted
          subst denoted
          by_cases decides : collector.absorbing = some n
          · simp only [if_pos decides]
            calc meaning.number n
                = meaning.number n *
                    (entriesTotal * meaning.number constant * later) :=
                  (meaning.number_absorbing decides _).symm
              _ = entriesTotal * meaning.number constant *
                    (meaning.number n * later) :=
                  mul_left_comm _ _ _
          · simp only [if_neg decides]
            have step :=
              inductionHypothesis restTotal before
                (collector.combine constant n)
            rwa [meaning.number_combine, ← mul_assoc entriesTotal,
              mul_assoc (entriesTotal * _)] at step
      | none =>
          simp only
          have entered :=
            OrderedMap.total_accumulate
              (fun same => compare_eq_iff.mp same) meaning.amount_add
              (meaning.amount_split denoted) before
          have step := inductionHypothesis restTotal entered constant
          rwa [mul_right_comm entriesTotal value, mul_assoc (entriesTotal * _)]
            at step

/-- The operands after collection have the total of entries and constant. -/
private theorem collected
    (meaning : collector.Meaning M)
    {entries : Entries}
    {entriesTotal : M}
    (before : Total meaning.amount entries entriesTotal)
    (constant : ℚ) :
    Total meaning.value (collector.collected entries constant)
      (entriesTotal * meaning.number constant) := by
  have rebuilt :
      Total meaning.value (entries.flatMap collector.rebuilt) entriesTotal := by
    refine before.flatMap fun entry _ value denoted => ?_
    obtain ⟨key, a⟩ := entry
    rw [Collector.rebuilt]
    split_ifs with isZero isOne
    · simp only at isZero
      rw [isZero] at denoted
      exact Aggregate.total_nil.mpr (meaning.amount_zero denoted)
    · simp only at isOne
      rw [isOne] at denoted
      exact total_singleton.mpr (meaning.amount_one denoted)
    · exact total_singleton.mpr (meaning.value_rebuild denoted)
  simp only [Collector.collected]
  split_ifs with pushes
  · rw [total_append]
    exact ⟨entriesTotal, meaning.number constant, rebuilt,
      total_singleton.mpr (meaning.value_num.mpr rfl), rfl⟩
  · have isNeutral : constant = collector.neutral := by
      by_contra differs
      exact pushes (Or.inl differs)
    rwa [isNeutral, meaning.number_neutral, mul_one]

/-- The collected node denotes the total of its operands. -/
theorem finish
    (meaning : collector.Meaning M)
    {operands : List AtomTree}
    {total : M}
    (operandsTotal : Total meaning.value operands total) :
    meaning.value (collector.finish operands) total := by
  have loop :=
    meaning.collect operandsTotal (Aggregate.total_nil.mpr rfl)
      collector.neutral
  rw [meaning.number_neutral, one_mul, one_mul] at loop
  rw [Collector.finish]
  cases outcome : collector.collect operands [] collector.neutral with
  | error n =>
      rw [outcome] at loop
      exact meaning.value_num.mpr loop.symm
  | ok collection =>
      rw [outcome] at loop
      obtain ⟨after, entriesTotal, rfl⟩ := loop
      have pieces := meaning.collected entriesTotal collection.2
      simp only
      generalize collector.collected collection.1 collection.2 = rebuilt at pieces ⊢
      cases rebuilt with
      | nil =>
          exact meaning.value_build pieces
      | cons first others =>
          cases others with
          | nil =>
              exact total_singleton.mp pieces
          | cons second rest =>
              exact meaning.value_build pieces

end Collector.Meaning

section Field

variable {K : Type*} [Field K] [CharZero K]

omit [CharZero K] in
/-- A term with a coefficient denotes its multiple. -/
private theorem hasTerm_splitCoefficient
    {meaning : Interpretation K}
    {operand : AtomTree}
    {value : Multiplicative K}
    (denoted : HasTerm meaning operand value) :
    ∃ x,
      eval meaning (splitCoefficient operand).1 = some x ∧
        value = Multiplicative.ofAdd ((splitCoefficient operand).2 * x : K) := by
  rw [splitCoefficient.eq_def]
  split
  case h_1 coefficient rest =>
    obtain ⟨first, others, isFirst, othersTotal, same⟩ :=
      total_cons.mp (eval_mul_iff.mp denoted)
    have isRest : HasFactor meaning rest others :=
      total_singleton.mp othersTotal
    have isCoefficient : (coefficient : K) = first := Option.some.inj isFirst
    refine ⟨others, isRest, ?_⟩
    rw [isCoefficient, same]
    rfl
  case h_2 =>
    refine ⟨value.toAdd, denoted, ?_⟩
    rw [Rat.cast_one, one_mul, ofAdd_toAdd]

/-- What `normalize_add` collects, in the additive group of the field. -/
def sumsMeaning (meaning : Interpretation K) :
    sums.Meaning (Multiplicative K) where
  value := HasTerm meaning
  number := fun n => Multiplicative.ofAdd (n : K)
  amount := fun entry value =>
    ∃ x,
      eval meaning entry.1 = some x ∧
        value = Multiplicative.ofAdd (entry.2 * x : K)
  value_num := by
    intro n m
    simp only [HasTerm, eval, Option.some.injEq]
    constructor
    · intro same
      rw [same, ofAdd_toAdd]
    · rintro rfl
      rfl
  number_neutral := by
    simp [sums, sumTotals]
  number_combine := by
    intro n n'
    simp [sums, sumTotals, ofAdd_add]
  number_absorbing := by
    intro n decides
    cases decides
  amount_split := hasTerm_splitCoefficient
  amount_add := by
    rintro key a a' m m' ⟨x, isKey, rfl⟩ ⟨x', isKey', rfl⟩
    rw [isKey, Option.some.injEq] at isKey'
    subst isKey'
    refine ⟨x, isKey, ?_⟩
    rw [← ofAdd_add, ← add_mul, Rat.cast_add]
  amount_zero := by
    rintro key m ⟨x, -, rfl⟩
    simp
  amount_one := by
    rintro key m ⟨x, isKey, rfl⟩
    simpa [HasTerm] using isKey
  value_rebuild := by
    rintro key a m ⟨x, isKey, rfl⟩
    apply eval_mkMul
    rw [total_cons]
    exact ⟨a, x, rfl, total_singleton.mpr isKey, rfl⟩
  value_build := eval_mkAdd

omit [CharZero K] in
/-- A base with an exponent denotes its power. -/
private theorem hasFactor_splitPower
    {meaning : Interpretation K}
    (laws : meaning.PowerLaws)
    {operand : AtomTree}
    {value : K}
    (denoted : HasFactor meaning operand value) :
    ∃ x,
      eval meaning (splitPower operand).1 = some x ∧
        meaning.power x (splitPower operand).2 = some value := by
  rw [splitPower.eq_def]
  split
  case h_1 base exponent =>
    obtain ⟨x, y, isBase, isExponent, isPower⟩ := eval_pow_iff.mp denoted
    have isNumber : (exponent : K) = y := Option.some.inj isExponent
    exact ⟨x, isBase, isNumber ▸ isPower⟩
  case h_2 =>
    refine ⟨value, denoted, ?_⟩
    rw [Rat.cast_one]
    exact laws.power_one value

/-- What `normalize_mul` collects, under the multiplication of the field. -/
def productsMeaning
    {meaning : Interpretation K}
    (laws : meaning.PowerLaws) :
    products.Meaning K where
  value := HasFactor meaning
  number := fun n => (n : K)
  amount := fun entry value =>
    ∃ x,
      eval meaning entry.1 = some x ∧ meaning.power x entry.2 = some value
  value_num := by
    intro n m
    simp only [HasFactor, eval, Option.some.injEq, eq_comm]
  number_neutral := Rat.cast_one
  number_combine := Rat.cast_mul
  number_absorbing := by
    intro n decides m
    cases decides
    rw [Rat.cast_zero, zero_mul]
  amount_split := hasFactor_splitPower laws
  amount_add := by
    rintro key a a' m m' ⟨x, isKey, isPower⟩ ⟨x', isKey', isPower'⟩
    rw [isKey, Option.some.injEq] at isKey'
    subst isKey'
    exact ⟨x, isKey, laws.power_add isPower isPower'⟩
  amount_zero := by
    rintro key m ⟨x, -, isPower⟩
    rw [Rat.cast_zero, laws.power_zero, Option.some.injEq] at isPower
    exact isPower.symm
  amount_one := by
    rintro key m ⟨x, isKey, isPower⟩
    rw [Rat.cast_one, laws.power_one, Option.some.injEq] at isPower
    rwa [HasFactor, ← isPower]
  value_rebuild := by
    rintro key a m ⟨x, isKey, isPower⟩
    exact eval_pow_iff.mpr ⟨x, a, isKey, rfl, isPower⟩
  value_build := eval_mkMul

omit [CharZero K] in
/-- Folding a power keeps its value. -/
private theorem eval_normalizePow
    {meaning : Interpretation K}
    (laws : meaning.PowerLaws)
    {base exponent : AtomTree}
    {value : K}
    (hasValue : eval meaning (.pow base exponent) = some value) :
    eval meaning (normalizePow base exponent) = some value := by
  cases isNumber : exponent.numValue? with
  | none =>
      simpa only [normalizePow, isNumber] using hasValue
  | some n =>
      obtain ⟨x, y, isBase, isExponent, isPower⟩ := eval_pow_iff.mp hasValue
      simp only [normalizePow, isNumber]
      rw [eq_num_of_numValue? isNumber] at isExponent
      have isValue : (n : K) = y := Option.some.inj isExponent
      split_ifs with isZero isOne
      · rw [← isValue, isZero, Rat.cast_zero, laws.power_zero] at isPower
        rw [eval, Rat.cast_one, isPower]
      · rw [← isValue, isOne, Rat.cast_one, laws.power_one] at isPower
        rw [isBase, isPower]
      · exact hasValue

/-- A tree that has a value has the same value after normalization. -/
theorem eval_normalize
    {meaning : Interpretation K}
    (laws : meaning.PowerLaws)
    {tree : AtomTree}
    {value : K}
    (hasValue : eval meaning tree = some value) :
    eval meaning tree.normalize = some value := by
  induction tree generalizing value with
  | num n =>
      exact hasValue
  | var symbol =>
      exact hasValue
  | add terms inductionHypothesis =>
      rw [normalize, normalizeAll_eq_map]
      have total := eval_add_iff.mp hasValue
      exact (sumsMeaning meaning).finish
        (total.map fun term member _ denoted =>
          inductionHypothesis term member denoted)
  | mul factors inductionHypothesis =>
      rw [normalize, normalizeAll_eq_map]
      have total := eval_mul_iff.mp hasValue
      exact (productsMeaning laws).finish
        (total.map fun factor member _ denoted =>
          inductionHypothesis factor member denoted)
  | pow base exponent baseHypothesis exponentHypothesis =>
      rw [normalize]
      obtain ⟨x, y, isBase, isExponent, isPower⟩ := eval_pow_iff.mp hasValue
      exact eval_normalizePow laws
        (eval_pow_iff.mpr
          ⟨x, y, baseHypothesis isBase, exponentHypothesis isExponent, isPower⟩)
  | func head arguments inductionHypothesis =>
      rw [normalize, normalizeAll_eq_map]
      simp only [eval, Option.bind_eq_some_iff] at hasValue ⊢
      obtain ⟨values, all, isValue⟩ := hasValue
      refine ⟨values, evalAll_map all ?_, isValue⟩
      intro argument member argumentValue denoted
      exact inductionHypothesis argument member denoted

end Field

end AtomTree

namespace AtomStore

/-- `normalize` keeps the value of every atom of every reachable arena. -/
theorem normalize_value
    [StringHash]
    {K : Type*}
    [Field K]
    [CharZero K]
    {meaning : Interpretation K}
    (laws : meaning.PowerLaws)
    {store : AtomStore}
    (reachable : store.Reachable)
    {index : Nat}
    (inside : index < store.nodes.length)
    {value : K}
    (hasValue : (store.tree index).eval meaning = some value) :
    ((store.normalize index).2.tree (store.normalize index).1).eval meaning =
      some value := by
  rw [(normalize_built reachable.invariant inside).tree_eq]
  exact AtomTree.eval_normalize laws hasValue

/-- Rationals with natural powers; every variable is 3. -/
def naturalPowers : Interpretation ℚ where
  variableValue := fun _ => 3
  function := fun _ _ => none
  power := fun base exponent =>
    if exponent.den = 1 ∧ 0 ≤ exponent.num then
      some (base ^ exponent.num.toNat)
    else
      none

theorem naturalPowers_laws : naturalPowers.PowerLaws where
  power_zero := by
    intro base
    simp [naturalPowers]
  power_one := by
    intro base
    simp [naturalPowers]
  power_add := by
    intro base first second r s isFirst isSecond
    simp only [naturalPowers, Rat.cast_id, Option.ite_none_right_eq_some,
      Option.some.injEq] at isFirst isSecond ⊢
    obtain ⟨⟨rInteger, rNatural⟩, rfl⟩ := isFirst
    obtain ⟨⟨sInteger, sNatural⟩, rfl⟩ := isSecond
    have rValue : r = (r.num : ℚ) := (Rat.coe_int_num_of_den_eq_one rInteger).symm
    have sValue : s = (s.num : ℚ) := (Rat.coe_int_num_of_den_eq_one sInteger).symm
    have sumValue : r + s = ((r.num + s.num : ℤ) : ℚ) := by
      rw [Int.cast_add, ← rValue, ← sValue]
    rw [sumValue, Rat.den_intCast, Rat.num_intCast, Int.toNat_add rNatural sNatural,
      pow_add]
    exact ⟨⟨rfl, Int.add_nonneg rNatural sNatural⟩, rfl⟩

/-- `x·x` is 9 where `x` is 3, and so is its normal form. -/
theorem normalize_value_square :
    let constant : StringHash := ⟨fun _ => 0⟩
    let store :=
      Transition.run (@BuilderCall.step constant) empty
        [.var ⟨0⟩, .mul [0, 0]]
    let square := @normalize constant store 1
    (square.2.tree square.1).eval naturalPowers = some 9 := by
  refine @normalize_value ⟨fun _ => 0⟩ ℚ _ _ _ naturalPowers_laws _
    ⟨[.var ⟨0⟩, .mul [0, 0]], ?_, rfl⟩ 1 ?_ 9 ?_
  · simp only [Transition.everyStep_cons]
    refine ⟨?_, ?_, Transition.everyStep_nil⟩ <;> decide +kernel
  · decide +kernel
  · have isSquare :
        tree (Transition.run (@BuilderCall.step ⟨fun _ => 0⟩) empty
            [.var ⟨0⟩, .mul [0, 0]]) 1 =
          .mul [.var ⟨0⟩, .var ⟨0⟩] := by
      decide +kernel
    rw [isSquare]
    norm_num [AtomTree.eval, AtomTree.evalAll, naturalPowers]

end AtomStore

end AtomCore
