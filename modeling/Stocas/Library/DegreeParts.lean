import Mathlib.FieldTheory.Finite.Extension
import Stocas.Library.SquarefreeParts

namespace DegreeParts

open GreatestCommonDivisor (IsGcd)
open Polynomial
open SquarefreeParts (Separate)

/-!
# Irreducible factors by their degrees

Over a finite field with `q` elements the irreducible factors of `X ^ q ^ d - X` are
the irreducible polynomials whose degree divides `d`.  A gcd with it takes the
factors of degree `d` out of a polynomial that has none of lower degree.
-/

variable {K : Type*} [Field K]

/-- No irreducible factor has a lower degree. -/
def FactorsFrom (degree : ℕ) (whole : K[X]) : Prop :=
  ∀ factor, Irreducible factor → factor ∣ whole → degree ≤ factor.natDegree

/-- Every irreducible factor has this degree. -/
def FactorsOf (degree : ℕ) (whole : K[X]) : Prop :=
  ∀ factor, Irreducible factor → factor ∣ whole → factor.natDegree = degree

theorem FactorsOf.of_dvd
    {degree : ℕ}
    {whole part : K[X]}
    (factors : FactorsOf degree whole)
    (divides : part ∣ whole) :
    FactorsOf degree part :=
  fun factor isIrreducible dividesPart =>
    factors factor isIrreducible (dividesPart.trans divides)

/-- The first irreducible factor is everything when it has the whole degree. -/
theorem FactorsOf.irreducible
    {degree : ℕ}
    {whole : K[X]}
    (factors : FactorsOf degree whole)
    (positive : 0 < degree)
    (wholeDegree : whole.natDegree = degree) :
    Irreducible whole := by
  have notUnit : ¬ IsUnit whole := by
    intro isUnit
    rw [natDegree_eq_zero_of_isUnit isUnit] at wholeDegree
    omega
  have isNonzero : whole ≠ 0 := by
    intro isZero
    rw [isZero, natDegree_zero] at wholeDegree
    omega
  obtain ⟨factor, isIrreducible, cofactor, product⟩ :=
    WfDvdMonoid.exists_irreducible_factor notUnit isNonzero
  have factorDegree := factors factor isIrreducible ⟨cofactor, product⟩
  have nonzeros : factor ≠ 0 ∧ cofactor ≠ 0 := mul_ne_zero_iff.mp (product ▸ isNonzero)
  have degrees := natDegree_mul nonzeros.1 nonzeros.2
  rw [← product, wholeDegree, factorDegree] at degrees
  have constant : cofactor.natDegree = 0 := by omega
  have isUnit : IsUnit cofactor :=
    isUnit_iff_degree_eq_zero.mpr
      ((degree_eq_iff_natDegree_eq nonzeros.2).mpr constant)
  have associated : Associated factor whole :=
    ⟨isUnit.unit, by rw [IsUnit.unit_spec, ← product]⟩
  exact associated.irreducible isIrreducible

/-- There is no room for a second factor below twice the lowest degree. -/
theorem FactorsFrom.factorsOf
    {degree : ℕ}
    {whole : K[X]}
    (factors : FactorsFrom degree whole)
    (isNonzero : whole ≠ 0)
    (small : whole.natDegree < 2 * degree) :
    FactorsOf whole.natDegree whole := by
  intro factor isIrreducible divides
  obtain ⟨cofactor, product⟩ := divides
  have nonzeros : factor ≠ 0 ∧ cofactor ≠ 0 := mul_ne_zero_iff.mp (product ▸ isNonzero)
  have degrees := natDegree_mul nonzeros.1 nonzeros.2
  rw [← product] at degrees
  have atLeast := factors factor isIrreducible ⟨cofactor, product⟩
  by_cases isUnit : IsUnit cofactor
  · rw [degrees, natDegree_eq_zero_of_isUnit isUnit, add_zero]
  · obtain ⟨other, otherIrreducible, dividesCofactor⟩ :=
      WfDvdMonoid.exists_irreducible_factor isUnit nonzeros.2
    have otherAtLeast := factors other otherIrreducible
      (product ▸ dividesCofactor.mul_left factor)
    have otherAtMost := natDegree_le_of_dvd dividesCofactor nonzeros.2
    omega

section Finite

variable [Finite K] {degree : ℕ} {whole common : K[X]}

/-- The gcd takes out factors of the given degree only. -/
theorem FactorsFrom.factorsOf_gcd
    (factors : FactorsFrom degree whole)
    (positive : 0 < degree)
    (isGcd : IsGcd whole (X ^ Nat.card K ^ degree - X) common) :
    FactorsOf degree common := by
  intro factor isIrreducible divides
  have dividesDegree : factor.natDegree ∣ degree :=
    isIrreducible.natDegree_dvd_iff_dvd_X_pow_card_pow_sub_X.mpr
      (divides.trans isGcd.dvd_right)
  exact le_antisymm (Nat.le_of_dvd positive dividesDegree)
    (factors factor isIrreducible (divides.trans isGcd.dvd_left))

/-- The gcd takes out all factors of the given degree. -/
theorem FactorsFrom.cofactor
    (factors : FactorsFrom degree whole)
    (squarefree : Squarefree whole)
    (isGcd : IsGcd whole (X ^ Nat.card K ^ degree - X) common)
    {rest : K[X]}
    (product : common * rest = whole) :
    FactorsFrom (degree + 1) rest := by
  intro factor isIrreducible divides
  have dividesWhole : factor ∣ whole := product ▸ divides.mul_left common
  refine Nat.succ_le_of_lt
    (lt_of_le_of_ne (factors factor isIrreducible dividesWhole) ?_)
  intro same
  have dividesPower : factor ∣ X ^ Nat.card K ^ degree - X :=
    isIrreducible.natDegree_dvd_iff_dvd_X_pow_card_pow_sub_X.mp (dvd_of_eq same.symm)
  have dividesCommon := isGcd.greatest factor dividesWhole dividesPower
  exact isIrreducible.not_isUnit
    (squarefree factor (product ▸ mul_dvd_mul dividesCommon divides))

end Finite

section Groups

open scoped Classical in
/--
Each entry is the product of exactly the factors of one degree, the entries are not
constant and come by increasing degrees, and they multiply to all factors.
-/
structure IsDegreeSplit
    (factors : Finset K[X])
    (groups : List (ℕ × K[X])) :
    Prop where
  increasing : groups.Pairwise (fun earlier later => earlier.1 < later.1)
  nonconstant : ∀ entry ∈ groups, 0 < entry.2.natDegree
  group :
    ∀ entry ∈ groups, entry.2 = ∏ factor ∈ factors with factor.natDegree = entry.1, factor
  product : (groups.map Prod.snd).prod = ∏ factor ∈ factors, factor

variable {factors : Finset K[X]} {degree : ℕ} {groups : List (ℕ × K[X])}

/-- Without factors there is nothing to group. -/
theorem isDegreeSplit_empty : IsDegreeSplit (∅ : Finset K[X]) [] where
  increasing := .nil
  nonconstant := by simp
  group := by simp
  product := by simp

/-- A single factor is a group. -/
theorem isDegreeSplit_singleton
    {factor : K[X]}
    (isIrreducible : Irreducible factor) :
    IsDegreeSplit {factor} [(factor.natDegree, factor)] where
  increasing := List.pairwise_singleton _ _
  nonconstant := by simpa using isIrreducible.natDegree_pos
  group := by simp [Finset.filter_singleton]
  product := by simp

namespace IsDegreeSplit

/-- Every factor is in the group of its degree. -/
theorem exists_entry
    (split : IsDegreeSplit factors groups)
    (separate : Separate factors)
    {factor : K[X]}
    (member : factor ∈ factors) :
    ∃ entry ∈ groups, entry.1 = factor.natDegree := by
  classical
  have divides : factor ∣ (groups.map Prod.snd).prod := by
    rw [split.product]
    exact Finset.dvd_prod_of_mem (fun other => other) member
  obtain ⟨group, groupMember, dividesGroup⟩ :=
    (separate.irreducible factor member).prime.dvd_prod_iff.mp divides
  obtain ⟨entry, entryMember, rfl⟩ := List.mem_map.mp groupMember
  refine ⟨entry, entryMember, ?_⟩
  rw [split.group entry entryMember] at dividesGroup
  have inGroup :=
    separate.mem_of_dvd_prod (Finset.filter_subset _ factors) member dividesGroup
  exact (Finset.mem_filter.mp inGroup).2.symm

/-- Every group has a factor of its degree. -/
theorem exists_factor
    (split : IsDegreeSplit factors groups)
    {entry : ℕ × K[X]}
    (member : entry ∈ groups) :
    ∃ factor ∈ factors, factor.natDegree = entry.1 := by
  classical
  have nonconstant := split.nonconstant entry member
  rw [split.group entry member] at nonconstant
  have occurs : (factors.filter (fun factor => factor.natDegree = entry.1)).Nonempty := by
    rw [Finset.nonempty_iff_ne_empty]
    intro isEmpty
    rw [isEmpty, Finset.prod_empty, natDegree_one] at nonconstant
    exact lt_irrefl 0 nonconstant
  obtain ⟨factor, inFactors⟩ := occurs
  exact ⟨factor, Finset.mem_filter.mp inFactors⟩

open scoped Classical in
/-- The factors of the lowest degree come first, before a split of the others. -/
theorem cons_iff
    (lowest : ∀ factor ∈ factors, degree ≤ factor.natDegree)
    {group : K[X]}
    (isGroup : group = ∏ factor ∈ factors with factor.natDegree = degree, factor)
    (nonconstant : 0 < group.natDegree) :
    IsDegreeSplit factors ((degree, group) :: groups) ↔
      IsDegreeSplit (factors.filter (fun factor => ¬ factor.natDegree = degree)) groups := by
  have isProduct :=
    Finset.prod_filter_mul_prod_filter_not factors
      (fun factor => factor.natDegree = degree) (fun factor => factor)
  rw [← isGroup] at isProduct
  have sameGroup
      {other : ℕ}
      (differs : other ≠ degree) :
      (factors.filter (fun factor => ¬ factor.natDegree = degree)).filter
          (fun factor => factor.natDegree = other) =
        factors.filter (fun factor => factor.natDegree = other) := by
    rw [Finset.filter_filter]
    refine Finset.filter_congr (fun factor _ => ?_)
    constructor
    · exact And.right
    · rintro rfl
      exact ⟨differs, rfl⟩
  constructor
  · intro split
    obtain ⟨after, increasing⟩ := List.pairwise_cons.mp split.increasing
    obtain ⟨_, restNonconstant⟩ := List.forall_mem_cons.mp split.nonconstant
    obtain ⟨_, restGroup⟩ := List.forall_mem_cons.mp split.group
    refine ⟨increasing, restNonconstant, ?_, ?_⟩
    · intro entry member
      rw [sameGroup (after entry member).ne']
      exact restGroup entry member
    · have product := split.product
      rw [List.map_cons, List.prod_cons, ← isProduct] at product
      have isNonzero : group ≠ 0 := by
        rintro rfl
        simp at nonconstant
      exact mul_left_cancel₀ isNonzero product
  · intro split
    have after : ∀ entry ∈ groups, degree < entry.1 := by
      intro entry member
      obtain ⟨factor, inOthers, sameDegree⟩ := split.exists_factor member
      obtain ⟨inFactors, differs⟩ := Finset.mem_filter.mp inOthers
      rw [← sameDegree]
      exact lt_of_le_of_ne (lowest factor inFactors) (Ne.symm differs)
    refine ⟨List.pairwise_cons.mpr ⟨after, split.increasing⟩,
      List.forall_mem_cons.mpr ⟨nonconstant, split.nonconstant⟩,
      List.forall_mem_cons.mpr ⟨isGroup, ?_⟩, ?_⟩
    · intro entry member
      rw [split.group entry member, sameGroup (after entry member).ne']
    · rw [List.map_cons, List.prod_cons, split.product, isProduct]

end IsDegreeSplit

open scoped Classical in
/-- The factors of degree at least `degree` whose degree is not `degree`. -/
theorem lowest_filter
    (lowest : ∀ factor ∈ factors, degree ≤ factor.natDegree) :
    ∀ factor ∈ factors.filter (fun factor => ¬ factor.natDegree = degree),
      degree + 1 ≤ factor.natDegree := by
  intro factor member
  obtain ⟨inFactors, differs⟩ := Finset.mem_filter.mp member
  exact Nat.succ_le_of_lt (lt_of_le_of_ne (lowest factor inFactors) (Ne.symm differs))

/-- There is at most one factor below twice the lowest degree. -/
theorem eq_singleton_of_small
    (separate : Separate factors)
    (lowest : ∀ factor ∈ factors, degree ≤ factor.natDegree)
    (small : (∏ factor ∈ factors, factor).natDegree < 2 * degree)
    (nonconstant : 0 < (∏ factor ∈ factors, factor).natDegree) :
    ∃ factor, factors = {factor} := by
  have degrees : (∏ factor ∈ factors, factor).natDegree = ∑ factor ∈ factors, factor.natDegree :=
    natDegree_prod_of_monic _ _ separate.monic
  have atLeast : factors.card * degree ≤ ∑ factor ∈ factors, factor.natDegree := by
    simpa using Finset.card_nsmul_le_sum factors natDegree degree lowest
  have notMany : factors.card < 2 := by
    by_contra many
    have := Nat.mul_le_mul_right degree (not_lt.mp many)
    omega
  have notEmpty : factors.card ≠ 0 := by
    intro isEmpty
    rw [Finset.card_eq_zero] at isEmpty
    simp [isEmpty] at nonconstant
  exact Finset.card_eq_one.mp (by omega)

/-- Among factors of at least this degree, those of this degree divide `X ^ q ^ d - X`. -/
theorem dvd_X_pow_card_pow_sub_X_iff
    [Finite K]
    (separate : Separate factors)
    (positive : 0 < degree)
    (lowest : ∀ factor ∈ factors, degree ≤ factor.natDegree)
    {factor : K[X]}
    (member : factor ∈ factors) :
    factor ∣ X ^ Nat.card K ^ degree - X ↔ factor.natDegree = degree := by
  rw [← (separate.irreducible factor member).natDegree_dvd_iff_dvd_X_pow_card_pow_sub_X]
  constructor
  · intro divides
    exact le_antisymm (Nat.le_of_dvd positive divides) (lowest factor member)
  · intro same
    exact dvd_of_eq same

/-- A factor that divides a product of factors of one degree has that degree. -/
theorem factorsOf_prod
    (separate : Separate factors)
    (ofDegree : ∀ factor ∈ factors, factor.natDegree = degree) :
    FactorsOf degree (∏ factor ∈ factors, factor) := by
  intro factor isIrreducible divides
  obtain ⟨other, otherMember, dividesOther⟩ :=
    (isIrreducible.prime.dvd_finsetProd_iff (fun other => other)).mp divides
  have associated :=
    isIrreducible.associated_of_dvd (separate.irreducible other otherMember) dividesOther
  rw [natDegree_eq_of_degree_eq (degree_eq_degree_of_associated associated)]
  exact ofDegree other otherMember

/-- Pieces of the degree of the factors that multiply to them are these factors. -/
theorem pieces_of_prod_eq
    (separate : Separate factors)
    (positive : 0 < degree)
    (ofDegree : ∀ factor ∈ factors, factor.natDegree = degree)
    {pieces : List K[X]}
    (monic : ∀ piece ∈ pieces, piece.Monic)
    (pieceDegree : ∀ piece ∈ pieces, piece.natDegree = degree)
    (product : pieces.prod = ∏ factor ∈ factors, factor) :
    pieces.Nodup ∧ ∀ piece, piece ∈ pieces ↔ piece ∈ factors := by
  have divides : ∀ piece ∈ pieces, piece ∣ ∏ factor ∈ factors, factor :=
    fun piece member => product ▸ List.dvd_prod member
  have isIrreducible : ∀ piece ∈ pieces, Irreducible piece := by
    intro piece member
    exact ((factorsOf_prod separate ofDegree).of_dvd (divides piece member)).irreducible
      positive (pieceDegree piece member)
  have same
      {piece factor : K[X]}
      (pieceMember : piece ∈ pieces)
      (factorMember : factor ∈ factors)
      (associated : Associated piece factor) :
      piece = factor :=
    eq_of_monic_of_associated (monic piece pieceMember) (separate.monic factor factorMember)
      associated
  refine ⟨?_, ?_⟩
  · rw [List.nodup_iff_sublist]
    intro piece twice
    have square : piece * piece ∣ ∏ factor ∈ factors, factor := by
      rw [← product]
      simpa using twice.prod_dvd_prod
    have member : piece ∈ pieces := twice.subset List.mem_cons_self
    exact (isIrreducible piece member).not_isUnit (separate.squarefree_prod piece square)
  · intro piece
    constructor
    · intro member
      obtain ⟨factor, factorMember, dividesFactor⟩ :=
        ((isIrreducible piece member).prime.dvd_finsetProd_iff (fun other => other)).mp
          (divides piece member)
      have associated :=
        (isIrreducible piece member).associated_of_dvd
          (separate.irreducible factor factorMember) dividesFactor
      exact same member factorMember associated ▸ factorMember
    · intro factorMember
      have dividesProduct : piece ∣ pieces.prod := by
        rw [product]
        exact Finset.dvd_prod_of_mem (fun other => other) factorMember
      obtain ⟨other, otherMember, dividesOther⟩ :=
        (separate.irreducible piece factorMember).prime.dvd_prod_iff.mp dividesProduct
      have associated :=
        (separate.irreducible piece factorMember).associated_of_dvd
          (isIrreducible other otherMember) dividesOther
      exact same otherMember factorMember associated.symm ▸ otherMember

end Groups

end DegreeParts
