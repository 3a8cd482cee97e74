import Mathlib.FieldTheory.Perfect
import Mathlib.RingTheory.UniqueFactorizationDomain.Multiplicity
import Stocas.Library.GreatestCommonDivisor

namespace SquarefreeParts

open GreatestCommonDivisor (IsGcd)
open Polynomial

/-!
# Products of separable factors and their derivatives

The derivative of a product of powers is a common cofactor times a sum over the
factors, weighted by their multiplicities.  A factor divides such a sum exactly when
its weight vanishes, so a gcd with it splits the factors by their weights.
-/

variable {K : Type*} [Field K]

/-- The greatest common divisor of multiples of two coprime polynomials. -/
theorem isGcd_of_isCoprime
    {common left right : K[X]}
    (coprime : IsCoprime left right) :
    IsGcd (common * left) (common * right) common where
  dvd_left := dvd_mul_right common left
  dvd_right := dvd_mul_right common right
  greatest divisor dividesLeft dividesRight := by
    obtain ⟨first, second, combination⟩ := coprime
    have written :
        common = first * (common * left) + second * (common * right) := by
      linear_combination (-common) * combination
    rw [written]
    exact dvd_add (dividesLeft.mul_left first) (dividesRight.mul_left second)

/-- Monic irreducible separable polynomials. -/
structure Separate (factors : Finset K[X]) : Prop where
  irreducible : ∀ factor ∈ factors, Irreducible factor
  monic : ∀ factor ∈ factors, factor.Monic
  separable : ∀ factor ∈ factors, factor.Separable

open scoped Classical in
/-- The sum of the derivatives of the factors, each weighted and times the others. -/
noncomputable def weighted
    (factors : Finset K[X])
    (weight : K[X] → K) :
    K[X] :=
  ∑ factor ∈ factors,
    (∏ other ∈ factors.erase factor, other) * (C (weight factor) * derivative factor)

namespace Separate

variable {factors : Finset K[X]}

theorem mono
    {fewer : Finset K[X]}
    (separate : Separate factors)
    (subset : fewer ⊆ factors) :
    Separate fewer where
  irreducible factor member := separate.irreducible factor (subset member)
  monic factor member := separate.monic factor (subset member)
  separable factor member := separate.separable factor (subset member)

/-- A factor that divides a product of factors is one of them. -/
theorem mem_of_dvd_prod
    {some : Finset K[X]}
    (separate : Separate factors)
    (subset : some ⊆ factors)
    {factor : K[X]}
    (member : factor ∈ factors)
    (divides : factor ∣ ∏ other ∈ some, other) :
    factor ∈ some := by
  have isPrime := (separate.irreducible factor member).prime
  obtain ⟨other, otherMember, dividesOther⟩ :=
    (isPrime.dvd_finsetProd_iff (fun other => other)).mp divides
  have associated : Associated factor other :=
    (separate.irreducible factor member).associated_of_dvd
      (separate.irreducible other (subset otherMember)) dividesOther
  have same : factor = other :=
    eq_of_monic_of_associated (separate.monic factor member)
      (separate.monic other (subset otherMember)) associated
  exact same ▸ otherMember

/-- Distinct factors are coprime. -/
theorem isCoprime_of_ne
    (separate : Separate factors)
    {left right : K[X]}
    (leftMember : left ∈ factors)
    (rightMember : right ∈ factors)
    (differ : left ≠ right) :
    IsCoprime left right := by
  rcases (separate.irreducible left leftMember).isCoprime_or_dvd right with
    coprime | divides
  · exact coprime
  · have same := separate.mem_of_dvd_prod (Finset.singleton_subset_iff.mpr rightMember)
      leftMember (by simpa using divides)
    exact absurd (Finset.mem_singleton.mp same) differ

/-- A product of distinct factors is squarefree. -/
theorem squarefree_prod
    (separate : Separate factors) :
    Squarefree (∏ factor ∈ factors, factor) := by
  refine (separable_prod' ?_ separate.separable).squarefree
  intro left leftMember right rightMember differ
  exact separate.isCoprime_of_ne leftMember rightMember differ

theorem monic_prod
    (separate : Separate factors) :
    (∏ factor ∈ factors, factor).Monic :=
  monic_prod_of_monic _ _ separate.monic

/-- Different sets of factors have different products. -/
theorem eq_of_prod_eq
    (separate : Separate factors)
    {some others : Finset K[X]}
    (someSubset : some ⊆ factors)
    (othersSubset : others ⊆ factors)
    (same : ∏ factor ∈ some, factor = ∏ factor ∈ others, factor) :
    some = others := by
  refine Finset.Subset.antisymm ?_ ?_
  · intro factor member
    refine separate.mem_of_dvd_prod othersSubset (someSubset member) ?_
    rw [← same]
    exact Finset.dvd_prod_of_mem (fun other => other) member
  · intro factor member
    refine separate.mem_of_dvd_prod someSubset (othersSubset member) ?_
    rw [same]
    exact Finset.dvd_prod_of_mem (fun other => other) member

open scoped Classical in
/-- The gcd with a product of factors is the product of those that divide. -/
theorem isGcd_filter_dvd
    (separate : Separate factors)
    (other : K[X]) :
    IsGcd (∏ factor ∈ factors, factor) other
      (∏ factor ∈ factors with factor ∣ other, factor) := by
  have dividesOther : ∏ factor ∈ factors with factor ∣ other, factor ∣ other := by
    refine Finset.prod_dvd_of_coprime ?_ ?_
    · intro left leftMember right rightMember differ
      exact separate.isCoprime_of_ne (Finset.mem_filter.mp leftMember).1
        (Finset.mem_filter.mp rightMember).1 differ
    · intro factor member
      exact (Finset.mem_filter.mp member).2
  obtain ⟨rest, product⟩ := dividesOther
  rw [← Finset.prod_filter_mul_prod_filter_not factors (fun factor => factor ∣ other)]
  have coprime : IsCoprime (∏ factor ∈ factors with ¬ factor ∣ other, factor) rest := by
    refine IsCoprime.prod_left (fun factor member => ?_)
    obtain ⟨inFactors, notDivides⟩ := Finset.mem_filter.mp member
    refine ((separate.irreducible factor inFactors).isCoprime_or_dvd rest).resolve_right ?_
    intro divides
    exact notDivides (product ▸ divides.mul_left _)
  have isGcd :
      IsGcd
        ((∏ factor ∈ factors with factor ∣ other, factor) *
          ∏ factor ∈ factors with ¬ factor ∣ other, factor)
        ((∏ factor ∈ factors with factor ∣ other, factor) * rest)
        (∏ factor ∈ factors with factor ∣ other, factor) :=
    isGcd_of_isCoprime coprime
  rwa [← product] at isGcd

open scoped Classical in
/-- A factor divides the weighted sum exactly when its weight is zero. -/
theorem dvd_weighted_iff
    (separate : Separate factors)
    (weight : K[X] → K)
    {factor : K[X]}
    (member : factor ∈ factors) :
    factor ∣ weighted factors weight ↔ weight factor = 0 := by
  have isIrreducible := separate.irreducible factor member
  have others :
      factor ∣
        ∑ other ∈ factors.erase factor,
          (∏ third ∈ factors.erase other, third) *
            (C (weight other) * derivative other) := by
    refine Finset.dvd_sum (fun other otherMember => Dvd.dvd.mul_right ?_ _)
    refine Finset.dvd_prod_of_mem (fun third => third) ?_
    exact Finset.mem_erase.mpr ⟨(Finset.ne_of_mem_erase otherMember).symm, member⟩
  rw [weighted, ← Finset.add_sum_erase _ _ member, dvd_add_left others]
  constructor
  · intro divides
    by_contra isNonzero
    rcases isIrreducible.prime.dvd_or_dvd divides with inOthers | inWeighted
    · have stays := separate.mem_of_dvd_prod (Finset.erase_subset factor factors)
        member inOthers
      exact Finset.notMem_erase factor factors stays
    · rcases isIrreducible.prime.dvd_or_dvd inWeighted with inConstant | inDerivative
      · exact isIrreducible.not_isUnit
          (isUnit_of_dvd_unit inConstant (isUnit_C.mpr (isUnit_iff_ne_zero.mpr isNonzero)))
      · exact isIrreducible.not_isUnit
          ((separate.separable factor member).isUnit_of_dvd' dvd_rfl inDerivative)
  · intro isZero
    simp [isZero]

/-- Without a zero weight the sum has no factor in common with the product. -/
theorem isCoprime_weighted
    (separate : Separate factors)
    {weight : K[X] → K}
    (nonzero : ∀ factor ∈ factors, weight factor ≠ 0) :
    IsCoprime (∏ factor ∈ factors, factor) (weighted factors weight) := by
  refine IsCoprime.prod_left (fun factor member => ?_)
  refine ((separate.irreducible factor member).isCoprime_or_dvd _).resolve_right ?_
  exact fun divides =>
    nonzero factor member ((separate.dvd_weighted_iff weight member).mp divides)

end Separate

/-- The derivative of a product of distinct factors has the weights one. -/
theorem derivative_prod_factors (factors : Finset K[X]) :
    derivative (∏ factor ∈ factors, factor) = weighted factors 1 := by
  classical
  rw [derivative_prod_finset, weighted]
  refine Finset.sum_congr (by rfl) (fun factor _ => ?_)
  simp

theorem weighted_sub
    (factors : Finset K[X])
    (left right : K[X] → K) :
    weighted factors left - weighted factors right = weighted factors (left - right) := by
  rw [weighted, weighted, weighted, ← Finset.sum_sub_distrib]
  refine Finset.sum_congr rfl (fun factor _ => ?_)
  rw [Pi.sub_apply, C_sub]
  ring

open scoped Classical in
/-- The factors of weight zero can be taken out of the sum. -/
theorem weighted_eq_mul
    (factors : Finset K[X])
    (weight : K[X] → K) :
    weighted factors weight =
      (∏ factor ∈ factors with weight factor = 0, factor) *
        weighted (factors.filter (fun factor => weight factor ≠ 0)) weight := by
  have onlyNonzero :
      weighted factors weight =
        ∑ factor ∈ factors with weight factor ≠ 0,
          (∏ other ∈ factors.erase factor, other) *
            (C (weight factor) * derivative factor) := by
    rw [Finset.sum_filter_of_ne]
    · rfl
    · intro factor _ termNonzero isZero
      exact termNonzero (by simp [isZero])
  rw [onlyNonzero, weighted, Finset.mul_sum]
  refine Finset.sum_congr rfl (fun factor member => ?_)
  have isNonzero := (Finset.mem_filter.mp member).2
  have split :
      ∏ other ∈ factors.erase factor, other =
        (∏ other ∈ factors with weight other = 0, other) *
          ∏ other ∈ (factors.filter (fun other => weight other ≠ 0)).erase factor,
            other := by
    rw [← Finset.prod_filter_mul_prod_filter_not (factors.erase factor)
      (fun other => weight other = 0), Finset.filter_erase, Finset.filter_erase]
    congr 1
    rw [Finset.erase_eq_of_notMem]
    exact fun found => isNonzero (Finset.mem_filter.mp found).2
  rw [split]
  ring

open scoped Classical in
/-- A gcd with the weighted sum picks out the factors of weight zero. -/
theorem Separate.isGcd_weighted
    {factors : Finset K[X]}
    (separate : Separate factors)
    (weight : K[X] → K) :
    IsGcd (∏ factor ∈ factors, factor) (weighted factors weight)
      (∏ factor ∈ factors with weight factor = 0, factor) := by
  rw [weighted_eq_mul,
    ← Finset.prod_filter_mul_prod_filter_not factors (fun factor => weight factor = 0)]
  refine isGcd_of_isCoprime ?_
  refine (separate.mono (Finset.filter_subset _ factors)).isCoprime_weighted ?_
  exact fun factor member => (Finset.mem_filter.mp member).2

section Powers

variable (factors : Finset K[X]) (multiplicity : K[X] → ℕ)

open scoped Classical in
/-- The factors whose multiplicity does not vanish in the field. -/
noncomputable def visible : Finset K[X] :=
  factors.filter (fun factor => (multiplicity factor : K) ≠ 0)

open scoped Classical in
/-- What a product of powers has in common with its derivative. -/
noncomputable def cofactor : K[X] :=
  ∏ factor ∈ factors,
    factor ^ (if (multiplicity factor : K) = 0 then multiplicity factor
      else multiplicity factor - 1)

theorem mem_visible
    {factor : K[X]} :
    factor ∈ visible factors multiplicity ↔
      factor ∈ factors ∧ (multiplicity factor : K) ≠ 0 := by
  classical
  exact Finset.mem_filter

theorem visible_subset : visible factors multiplicity ⊆ factors :=
  fun _ member => ((mem_visible factors multiplicity).mp member).1

open scoped Classical in
theorem cofactor_eq_mul
    {factor : K[X]}
    (member : factor ∈ factors) :
    cofactor factors multiplicity =
      factor ^ (if (multiplicity factor : K) = 0 then multiplicity factor
        else multiplicity factor - 1) *
        cofactor (factors.erase factor) multiplicity := by
  rw [cofactor, cofactor]
  exact (Finset.mul_prod_erase factors _ member).symm

open scoped Classical in
/-- One power of each visible factor is left beside the cofactor. -/
theorem prod_pow_eq :
    ∏ factor ∈ factors, factor ^ multiplicity factor =
      cofactor factors multiplicity * ∏ factor ∈ visible factors multiplicity, factor := by
  rw [cofactor, visible, Finset.prod_filter, ← Finset.prod_mul_distrib]
  refine Finset.prod_congr rfl (fun factor _ => ?_)
  by_cases isZero : (multiplicity factor : K) = 0
  · simp [isZero]
  · have positive : multiplicity factor ≠ 0 := by
      intro noPower
      exact isZero (by rw [noPower, Nat.cast_zero])
    rw [if_neg isZero, if_pos isZero, pow_sub_one_mul positive]

open scoped Classical in
/-- The derivative is the cofactor times the sum weighted by the multiplicities. -/
theorem derivative_prod_pow :
    derivative (∏ factor ∈ factors, factor ^ multiplicity factor) =
      cofactor factors multiplicity *
        weighted (visible factors multiplicity)
          (fun factor => (multiplicity factor : K)) := by
  rw [derivative_prod_finset, weighted, Finset.mul_sum, visible, Finset.sum_filter]
  refine Finset.sum_congr rfl (fun factor member => ?_)
  by_cases isZero : (multiplicity factor : K) = 0
  · simp [derivative_pow, isZero]
  · have rest :
        (∏ other ∈ factors.erase factor, other ^ multiplicity other) *
            factor ^ (multiplicity factor - 1) =
          cofactor factors multiplicity *
            ∏ other ∈ (visible factors multiplicity).erase factor, other := by
      rw [prod_pow_eq, cofactor_eq_mul factors multiplicity member, if_neg isZero,
        visible, visible, Finset.filter_erase]
      ring
    rw [if_pos isZero, derivative_pow]
    calc
      (∏ other ∈ factors.erase factor, other ^ multiplicity other) *
            (C (multiplicity factor : K) * factor ^ (multiplicity factor - 1) *
              derivative factor) =
          ((∏ other ∈ factors.erase factor, other ^ multiplicity other) *
            factor ^ (multiplicity factor - 1)) *
              (C (multiplicity factor : K) * derivative factor) := by
        ring
      _ = cofactor factors multiplicity *
            ((∏ other ∈ (visible factors multiplicity).erase factor, other) *
              (C (multiplicity factor : K) * derivative factor)) := by
        rw [rest, mul_assoc]

end Powers

theorem Separate.monic_cofactor
    {factors : Finset K[X]}
    (separate : Separate factors)
    (multiplicity : K[X] → ℕ) :
    (cofactor factors multiplicity).Monic :=
  monic_prod_of_monic _ _ (fun factor member => (separate.monic factor member).pow _)

/-- The gcd of a product of powers with its derivative is the cofactor. -/
theorem Separate.isGcd_derivative
    {factors : Finset K[X]}
    (separate : Separate factors)
    (multiplicity : K[X] → ℕ) :
    IsGcd (∏ factor ∈ factors, factor ^ multiplicity factor)
      (derivative (∏ factor ∈ factors, factor ^ multiplicity factor))
      (cofactor factors multiplicity) := by
  classical
  rw [derivative_prod_pow, prod_pow_eq]
  refine isGcd_of_isCoprime ?_
  refine (separate.mono (Finset.filter_subset _ factors)).isCoprime_weighted ?_
  exact fun factor member => (Finset.mem_filter.mp member).2

/-- Numbers at a distance below the characteristic differ in the field. -/
theorem natCast_ne_of_lt
    (p : ℕ)
    [CharP K p]
    {index later : ℕ}
    (less : index < later)
    (near : later < index + p) :
    (index : K) ≠ later := by
  intro same
  have divides :=
    (Nat.modEq_iff_dvd' less.le).mp ((CharP.natCast_eq_natCast K p).mp same)
  have atMost := Nat.le_of_dvd (Nat.sub_pos_of_lt less) divides
  omega

section Parts

variable (factors : Finset K[X]) (multiplicity : K[X] → ℕ)

open scoped Classical in
/-- The product of the factors whose multiplicity is a given one in the field. -/
noncomputable def part (index : ℕ) : K[X] :=
  ∏ factor ∈ factors with (multiplicity factor : K) = index, factor

/-- The parts that are not constant, among those with the given indices. -/
noncomputable def partsFrom
    (first count : ℕ) :
    List (K[X] × ℕ) :=
  ((List.range' first count).map (fun index => (part factors multiplicity index, index))).filter
    (fun entry => 0 < entry.1.natDegree)

variable {factors}

open scoped Classical in
theorem Separate.monic_part
    (separate : Separate factors)
    (index : ℕ) :
    (part factors multiplicity index).Monic :=
  (separate.mono (Finset.filter_subset _ factors)).monic_prod

open scoped Classical in
/-- The factors with another multiplicity. -/
noncomputable def without (factors : Finset K[X]) (index : ℕ) : Finset K[X] :=
  factors.filter (fun factor => (multiplicity factor : K) ≠ index)

theorem mem_without
    {index : ℕ}
    {factor : K[X]} :
    factor ∈ without multiplicity factors index ↔
      factor ∈ factors ∧ (multiplicity factor : K) ≠ index := by
  classical
  exact Finset.mem_filter

theorem without_subset (index : ℕ) :
    without multiplicity factors index ⊆ factors :=
  fun _ member => ((mem_without multiplicity).mp member).1

/-- A part of powers of one factor is that factor, unless it is constant. -/
theorem natDegree_part_singleton
    {factor : K[X]}
    {multiplicity : K[X] → ℕ}
    {degree : ℕ}
    (factorDegree : factor.natDegree = degree)
    {index : ℕ}
    (nonconstant :
      0 < (part (visible {factor} multiplicity) multiplicity index).natDegree) :
    (part (visible {factor} multiplicity) multiplicity index).natDegree = degree := by
  classical
  rw [part] at nonconstant ⊢
  have subset :
      (visible {factor} multiplicity).filter
          (fun factor => (multiplicity factor : K) = index) ⊆ {factor} :=
    (Finset.filter_subset _ _).trans (visible_subset _ _)
  rcases Finset.subset_singleton_iff.mp subset with isEmpty | isSingle
  · rw [isEmpty, Finset.prod_empty, natDegree_one] at nonconstant
    exact absurd nonconstant (lt_irrefl 0)
  · rw [isSingle, Finset.prod_singleton, factorDegree]

theorem partsFrom_empty
    (first count : ℕ) :
    partsFrom ∅ multiplicity first count = [] := by
  rw [partsFrom, List.filter_eq_nil_iff]
  intro entry member
  obtain ⟨index, _, rfl⟩ := List.mem_map.mp member
  simp [part]

/-- The first index gives its part, unless that is constant. -/
theorem partsFrom_succ
    (first count : ℕ) :
    partsFrom factors multiplicity first (count + 1) =
      if 0 < (part factors multiplicity first).natDegree then
        (part factors multiplicity first, first) ::
          partsFrom factors multiplicity (first + 1) count
      else
        partsFrom factors multiplicity (first + 1) count := by
  rw [partsFrom, partsFrom, List.range'_succ, List.map_cons, List.filter_cons]
  simp

theorem prod_eq_part_mul (index : ℕ) :
    ∏ factor ∈ factors, factor =
      part factors multiplicity index *
        ∏ factor ∈ without multiplicity factors index, factor := by
  classical
  exact (Finset.prod_filter_mul_prod_filter_not factors _ _).symm

/-- The part and the rest in terms of weights that vanish on the part. -/
theorem weighted_eq_part_mul (index : ℕ) :
    weighted factors (fun factor => (multiplicity factor : K) - index) =
      part factors multiplicity index *
        weighted (without multiplicity factors index)
          (fun factor => (multiplicity factor : K) - index) := by
  classical
  rw [weighted_eq_mul, part, without]
  simp only [sub_eq_zero, ne_eq]

/-- A gcd with the weighted sum is the part of weight zero. -/
theorem Separate.isGcd_part
    (separate : Separate factors)
    (index : ℕ) :
    IsGcd (∏ factor ∈ factors, factor)
      (weighted factors (fun factor => (multiplicity factor : K) - index))
      (part factors multiplicity index) := by
  classical
  have same :
      factors.filter (fun factor => (multiplicity factor : K) - index = 0) =
        factors.filter (fun factor => (multiplicity factor : K) = index) :=
    Finset.filter_congr (fun factor _ => sub_eq_zero)
  rw [part, ← same]
  convert separate.isGcd_weighted (fun factor => (multiplicity factor : K) - index)

/-- Taking one part out does not change the others. -/
theorem part_without
    {index other : ℕ}
    (differ : (other : K) ≠ index) :
    part (without multiplicity factors index) multiplicity other =
      part factors multiplicity other := by
  classical
  rw [part, part, without, Finset.filter_filter]
  congr 1
  refine Finset.filter_congr (fun factor _ => ?_)
  constructor
  · intro both
    exact both.2
  · intro same
    exact ⟨same ▸ differ, same⟩

/-- Nor does it change the parts of indices that are all different from it. -/
theorem partsFrom_without
    {index first count : ℕ}
    (differ : ∀ other, first ≤ other → other < first + count → (other : K) ≠ index) :
    partsFrom (without multiplicity factors index) multiplicity first count =
      partsFrom factors multiplicity first count := by
  rw [partsFrom, partsFrom]
  refine congrArg _ (List.map_congr_left (fun other member => ?_))
  obtain ⟨atLeast, below⟩ := List.mem_range'_1.mp member
  rw [part_without multiplicity (differ other atLeast below)]

open scoped Classical in
theorem Separate.squarefree_part
    (separate : Separate factors)
    (index : ℕ) :
    Squarefree (part factors multiplicity index) :=
  (separate.mono (Finset.filter_subset _ factors)).squarefree_prod

open scoped Classical in
/-- The factors of a visible part have its index as their multiplicity in the field. -/
theorem Separate.dvd_visible_part_iff
    (separate : Separate factors)
    {factor : K[X]}
    (member : factor ∈ factors)
    {index : ℕ} :
    factor ∣ part (visible factors multiplicity) multiplicity index ↔
      (multiplicity factor : K) ≠ 0 ∧ (multiplicity factor : K) = index := by
  have subset := visible_subset factors multiplicity
  constructor
  · intro divides
    have inPart :=
      separate.mem_of_dvd_prod ((Finset.filter_subset _ _).trans subset) member divides
    obtain ⟨isVisible, isIndex⟩ := Finset.mem_filter.mp inPart
    exact ⟨((mem_visible factors multiplicity).mp isVisible).2, isIndex⟩
  · rintro ⟨nonzero, isIndex⟩
    have isVisible := (mem_visible factors multiplicity).mpr ⟨member, nonzero⟩
    exact Finset.dvd_prod_of_mem (fun other => other)
      (Finset.mem_filter.mpr ⟨isVisible, isIndex⟩)

/-- Only the empty product of factors is constant. -/
theorem Separate.eq_empty_of_natDegree
    (separate : Separate factors)
    (constant : (∏ factor ∈ factors, factor).natDegree = 0) :
    factors = ∅ := by
  have isOne := eq_one_of_monic_natDegree_zero separate.monic_prod constant
  rw [Finset.eq_empty_iff_forall_notMem]
  intro factor member
  refine (separate.irreducible factor member).not_isUnit (isUnit_of_dvd_one ?_)
  rw [← isOne]
  exact Finset.dvd_prod_of_mem (fun other => other) member

/-- Constant parts are one, so leaving them out does not change the product. -/
theorem Separate.prod_partsFrom
    (separate : Separate factors)
    (first count : ℕ) :
    ((partsFrom factors multiplicity first count).map (fun entry => entry.1 ^ entry.2)).prod =
      ∏ index ∈ (List.range' first count).toFinset,
        part factors multiplicity index ^ index := by
  have dropsConstants
      (indices : List ℕ) :
      (((indices.map (fun index => (part factors multiplicity index, index))).filter
          (fun entry => 0 < entry.1.natDegree)).map (fun entry => entry.1 ^ entry.2)).prod =
        (indices.map (fun index => part factors multiplicity index ^ index)).prod := by
    induction indices with
    | nil =>
        rfl
    | cons index indices inductionHypothesis =>
        rw [List.map_cons, List.map_cons, List.prod_cons, ← inductionHypothesis]
        by_cases nonconstant : 0 < (part factors multiplicity index).natDegree
        · rw [List.filter_cons_of_pos (by simpa using nonconstant), List.map_cons,
            List.prod_cons]
        · have isOne : part factors multiplicity index = 1 :=
            eq_one_of_monic_natDegree_zero (separate.monic_part multiplicity index)
              (by omega)
          rw [List.filter_cons_of_neg (by simpa using nonconstant), isOne, one_pow,
            one_mul]
  rw [partsFrom, dropsConstants, List.prod_toFinset _ List.nodup_range']

/-- In characteristic `p` the indices are the multiplicities modulo `p`. -/
theorem Separate.prod_visible_partsFrom
    (separate : Separate factors)
    (p : ℕ)
    [NeZero p]
    [CharP K p] :
    ((partsFrom (visible factors multiplicity) multiplicity 1 p).map
      (fun entry => entry.1 ^ entry.2)).prod =
      ∏ factor ∈ factors, factor ^ (multiplicity factor % p) := by
  classical
  have visibleSubset := visible_subset factors multiplicity
  have zero_iff
      (factor : K[X]) :
      (multiplicity factor : K) = 0 ↔ multiplicity factor % p = 0 := by
    rw [CharP.cast_eq_zero_iff K p, Nat.dvd_iff_mod_eq_zero]
  have below
      (factor : K[X]) :
      multiplicity factor % p < p :=
    Nat.mod_lt _ (Nat.pos_of_neZero p)
  have inRange :
      ∀ factor ∈ visible factors multiplicity,
        multiplicity factor % p ∈ (List.range' 1 p).toFinset := by
    intro factor member
    have isVisible := ((mem_visible factors multiplicity).mp member).2
    rw [Ne, zero_iff] at isVisible
    rw [List.mem_toFinset, List.mem_range'_1]
    exact ⟨Nat.pos_of_ne_zero isVisible, by have := below factor; omega⟩
  have partPower :
      ∀ index ∈ (List.range' 1 p).toFinset,
        part (visible factors multiplicity) multiplicity index ^ index =
          ∏ factor ∈ visible factors multiplicity with multiplicity factor % p = index,
            factor ^ (multiplicity factor % p) := by
    intro index member
    rw [List.mem_toFinset, List.mem_range'_1] at member
    have sameFactors :
        (visible factors multiplicity).filter
            (fun factor => (multiplicity factor : K) = index) =
          (visible factors multiplicity).filter
            (fun factor => multiplicity factor % p = index) := by
      refine Finset.filter_congr (fun factor isVisible => ?_)
      have nonzero := ((mem_visible factors multiplicity).mp isVisible).2
      rw [Ne, zero_iff] at nonzero
      rw [CharP.natCast_eq_natCast K p, Nat.ModEq]
      by_cases isLast : index = p
      · have := below factor
        simp only [isLast, Nat.mod_self]
        omega
      · rw [Nat.mod_eq_of_lt (show index < p by omega)]
    rw [part, ← Finset.prod_pow]
    refine Finset.prod_congr ?_ ?_
    · convert sameFactors
    · intro factor inPart
      rw [(Finset.mem_filter.mp inPart).2]
  rw [(separate.mono visibleSubset).prod_partsFrom multiplicity 1 p,
    Finset.prod_congr rfl partPower, Finset.prod_fiberwise_of_maps_to inRange]
  refine Finset.prod_subset visibleSubset (fun factor member invisible => ?_)
  have isZero : (multiplicity factor : K) = 0 := by
    by_contra nonzero
    exact invisible ((mem_visible factors multiplicity).mpr ⟨member, nonzero⟩)
  rw [(zero_iff factor).mp isZero, pow_zero]

/-- A product of distinct factors is its own only part. -/
theorem partsFrom_once
    (p : ℕ)
    [CharP K p]
    (large : 1 < p)
    (nonconstant : 0 < (∏ factor ∈ factors, factor).natDegree) :
    partsFrom (visible factors (fun _ => 1)) (fun _ => 1) 1 p =
      [(∏ factor ∈ factors, factor, 1)] := by
  classical
  have allVisible : visible factors (fun _ => 1) = factors := by
    ext factor
    simp [mem_visible]
  have wholePart : part factors (fun _ => 1) 1 = ∏ factor ∈ factors, factor := by
    simp [part]
  have laterParts :
      ∀ index ∈ List.range' 2 (p - 1),
        ¬ 0 < (part factors (fun _ => 1) index).natDegree := by
    intro index member
    obtain ⟨atLeast, below⟩ := List.mem_range'_1.mp member
    have differ : ((1 : ℕ) : K) ≠ index := by
      intro same
      have congruent := (CharP.natCast_eq_natCast K p).mp same
      rcases Nat.lt_or_ge index p with less | atMost
      · have := congruent.eq_of_lt_of_lt large less
        omega
      · have isLast : index = p := by omega
        rw [isLast, Nat.ModEq, Nat.mod_self, Nat.mod_eq_of_lt large] at congruent
        omega
    have noFactors :
        factors.filter (fun _ => ((1 : ℕ) : K) = index) = ∅ :=
      Finset.filter_false_of_mem (fun _ _ => differ)
    rw [part, noFactors, Finset.prod_empty, natDegree_one]
    exact lt_irrefl 0
  rw [allVisible, partsFrom, show p = p - 1 + 1 by omega, List.range'_succ, List.map_cons,
    wholePart, List.filter_cons_of_pos (by simpa using nonconstant)]
  congr 1
  rw [List.filter_eq_nil_iff]
  intro entry member
  obtain ⟨index, inRange, rfl⟩ := List.mem_map.mp member
  simpa using laterParts index inRange

/-- Multiplicities modulo `p` give the product back when they are below `p`. -/
theorem Separate.prod_mod_eq_iff
    (separate : Separate factors)
    {p : ℕ}
    (positive : 0 < p) :
    ∏ factor ∈ factors, factor ^ (multiplicity factor % p) =
        ∏ factor ∈ factors, factor ^ multiplicity factor ↔
      ∀ factor ∈ factors, multiplicity factor < p := by
  constructor
  · intro same
    have degree
        (exponent : K[X] → ℕ) :
        (∏ factor ∈ factors, factor ^ exponent factor).natDegree =
          ∑ factor ∈ factors, exponent factor * factor.natDegree := by
      rw [natDegree_prod_of_monic _ _
        (fun factor member => (separate.monic factor member).pow _)]
      exact Finset.sum_congr rfl
        (fun factor member => (separate.monic factor member).natDegree_pow _)
    have sums := congrArg natDegree same
    rw [degree, degree] at sums
    have smaller :
        ∀ factor ∈ factors,
          multiplicity factor % p * factor.natDegree ≤
            multiplicity factor * factor.natDegree :=
      fun factor _ => Nat.mul_le_mul_right _ (Nat.mod_le _ _)
    intro factor member
    have equal := (Finset.sum_eq_sum_iff_of_le smaller).mp sums factor member
    have positiveDegree := (separate.irreducible factor member).natDegree_pos
    have unchanged := Nat.eq_of_mul_eq_mul_right positiveDegree equal
    exact unchanged ▸ Nat.mod_lt _ positive
  · intro below
    refine Finset.prod_congr rfl (fun factor member => ?_)
    rw [Nat.mod_eq_of_lt (below factor member)]

/--
The entries are monic, nonconstant, squarefree and coprime in pairs, listed by
increasing exponents, and their powers multiply to the polynomial.
-/
structure IsSquarefreeDecomposition
    (whole : K[X])
    (parts : List (K[X] × ℕ)) :
    Prop where
  increasing : parts.Pairwise (fun earlier later => earlier.2 < later.2)
  monic : ∀ entry ∈ parts, entry.1.Monic
  nonconstant : ∀ entry ∈ parts, 0 < entry.1.natDegree
  squarefree : ∀ entry ∈ parts, Squarefree entry.1
  coprime : parts.Pairwise (fun earlier later => IsCoprime earlier.1 later.1)
  product : (parts.map (fun entry => entry.1 ^ entry.2)).prod = whole

/-- Parts of different multiplicities have no factor in common. -/
theorem Separate.isCoprime_part
    (separate : Separate factors)
    {index other : ℕ}
    (differ : (index : K) ≠ other) :
    IsCoprime (part factors multiplicity index) (part factors multiplicity other) := by
  classical
  refine IsCoprime.prod_left (fun left leftMember => ?_)
  refine IsCoprime.prod_right (fun right rightMember => ?_)
  obtain ⟨inLeft, leftIndex⟩ := Finset.mem_filter.mp leftMember
  obtain ⟨inRight, rightIndex⟩ := Finset.mem_filter.mp rightMember
  refine separate.isCoprime_of_ne inLeft inRight ?_
  rintro rfl
  exact differ (leftIndex.symm.trans rightIndex)

/-- A relation on the parts that increasing indices imply holds along the list. -/
theorem pairwise_partsFrom
    (first count : ℕ)
    {related : K[X] × ℕ → K[X] × ℕ → Prop}
    (increasing :
      ∀ index later, first ≤ index → index < later → later < first + count →
        related (part factors multiplicity index, index)
          (part factors multiplicity later, later)) :
    (partsFrom factors multiplicity first count).Pairwise related := by
  rw [partsFrom]
  refine List.Pairwise.filter _ ?_
  rw [List.pairwise_map]
  refine List.Pairwise.imp_of_mem ?_ List.pairwise_lt_range'
  intro index later indexMember laterMember less
  exact increasing index later (List.mem_range'_1.mp indexMember).1 less
    (List.mem_range'_1.mp laterMember).2

/-- Every listed part is nonconstant. -/
theorem exists_of_mem_partsFrom
    {first count : ℕ}
    {entry : K[X] × ℕ}
    (member : entry ∈ partsFrom factors multiplicity first count) :
    entry.1 = part factors multiplicity entry.2 ∧ 0 < entry.1.natDegree := by
  obtain ⟨listed, nonconstant⟩ := List.mem_filter.mp member
  obtain ⟨index, _, rfl⟩ := List.mem_map.mp listed
  exact ⟨rfl, of_decide_eq_true nonconstant⟩

/-- The listed parts are the nonconstant ones with an index in the range. -/
theorem mem_partsFrom_iff
    {first count : ℕ}
    {entry : K[X] × ℕ} :
    entry ∈ partsFrom factors multiplicity first count ↔
      (first ≤ entry.2 ∧ entry.2 < first + count) ∧
        entry.1 = part factors multiplicity entry.2 ∧ 0 < entry.1.natDegree := by
  constructor
  · intro member
    obtain ⟨listed, _⟩ := List.mem_filter.mp member
    obtain ⟨index, inRange, rfl⟩ := List.mem_map.mp listed
    exact ⟨List.mem_range'_1.mp inRange, exists_of_mem_partsFrom multiplicity member⟩
  · rintro ⟨inRange, isPart, nonconstant⟩
    refine List.mem_filter.mpr ⟨List.mem_map.mpr ⟨entry.2, ?_, ?_⟩, ?_⟩
    · exact List.mem_range'_1.mpr inRange
    · rw [← isPart]
    · exact decide_eq_true nonconstant

/-- Multiplicities below the characteristic give the decomposition of the product. -/
theorem Separate.isSquarefreeDecomposition
    (separate : Separate factors)
    (p : ℕ)
    [NeZero p]
    [CharP K p]
    (below : ∀ factor ∈ factors, multiplicity factor < p) :
    IsSquarefreeDecomposition (∏ factor ∈ factors, factor ^ multiplicity factor)
      (partsFrom (visible factors multiplicity) multiplicity 1 p) := by
  have visibleSeparate := separate.mono (visible_subset factors multiplicity)
  refine {
    increasing := ?_
    monic := ?_
    nonconstant := ?_
    squarefree := ?_
    coprime := ?_
    product := ?_
  }
  · exact pairwise_partsFrom multiplicity 1 p (fun _ _ _ less _ => less)
  · intro entry member
    rw [(exists_of_mem_partsFrom multiplicity member).1]
    exact visibleSeparate.monic_part multiplicity entry.2
  · intro entry member
    exact (exists_of_mem_partsFrom multiplicity member).2
  · intro entry member
    rw [(exists_of_mem_partsFrom multiplicity member).1]
    exact visibleSeparate.squarefree_part multiplicity entry.2
  · refine pairwise_partsFrom multiplicity 1 p (fun index later atLeast less bounded => ?_)
    refine visibleSeparate.isCoprime_part multiplicity ?_
    exact natCast_ne_of_lt p less (by omega)
  · rw [separate.prod_visible_partsFrom multiplicity p,
      (separate.prod_mod_eq_iff multiplicity (Nat.pos_of_neZero p)).mpr below]

end Parts

section Factors

open UniqueFactorizationMonoid

open scoped Classical in
/-- The monic irreducible factors. -/
noncomputable def factorsOf (whole : K[X]) : Finset K[X] :=
  (normalizedFactors whole).toFinset

variable {whole : K[X]}

theorem mem_factorsOf
    (isNonzero : whole ≠ 0)
    {factor : K[X]} :
    factor ∈ factorsOf whole ↔ Irreducible factor ∧ factor.Monic ∧ factor ∣ whole := by
  classical
  rw [factorsOf, Multiset.mem_toFinset]
  exact Polynomial.mem_normalizedFactors_iff isNonzero

/-- Over a perfect field irreducible factors are separable. -/
theorem separate_factorsOf
    [PerfectField K]
    (isNonzero : whole ≠ 0) :
    Separate (factorsOf whole) where
  irreducible _ member := ((mem_factorsOf isNonzero).mp member).1
  monic _ member := ((mem_factorsOf isNonzero).mp member).2.1
  separable _ member :=
    PerfectField.separable_of_irreducible ((mem_factorsOf isNonzero).mp member).1

/-- A polynomial is its leading coefficient times the powers of its factors. -/
theorem prod_factorsOf
    (isNonzero : whole ≠ 0) :
    C whole.leadingCoeff *
        ∏ factor ∈ factorsOf whole, factor ^ multiplicity factor whole =
      whole := by
  classical
  have counted :
      ∏ factor ∈ factorsOf whole, factor ^ multiplicity factor whole =
        (normalizedFactors whole).prod := by
    rw [Finset.prod_multiset_count, factorsOf]
    refine Finset.prod_congr rfl (fun factor member => ?_)
    have inFactors := Multiset.mem_toFinset.mp member
    rw [multiplicity_eq_count_normalizedFactors
      (irreducible_of_normalized_factor factor inFactors) isNonzero,
      normalize_normalized_factor factor inFactors]
  rw [counted]
  exact leadingCoeff_mul_prod_normalizedFactors whole

/-- A squarefree monic polynomial is the product of its factors. -/
theorem prod_factorsOf_squarefree
    (monic : whole.Monic)
    (squarefree : Squarefree whole) :
    ∏ factor ∈ factorsOf whole, factor = whole := by
  have isNonzero := monic.ne_zero
  have powers := prod_factorsOf isNonzero
  rw [monic.leadingCoeff, C_1, one_mul] at powers
  conv_rhs => rw [← powers]
  refine Finset.prod_congr rfl (fun factor member => ?_)
  obtain ⟨isIrreducible, _, divides⟩ := (mem_factorsOf isNonzero).mp member
  have once : multiplicity factor whole = 1 := by
    refine le_antisymm ?_ ?_
    · by_contra more
      have square := pow_dvd_of_le_multiplicity (show 2 ≤ multiplicity factor whole by omega)
      rw [pow_two] at square
      exact isIrreducible.not_isUnit (squarefree factor square)
    · refine Nat.one_le_iff_ne_zero.mpr (fun isZero => ?_)
      exact (multiplicity_eq_zero.mp isZero) divides
  rw [once, pow_one]

/-- Distinct factors divide the polynomial together. -/
theorem prod_factorsOf_dvd
    (isNonzero : whole ≠ 0) :
    ∏ factor ∈ factorsOf whole, factor ∣ whole := by
  have dividesPowers :
      ∏ factor ∈ factorsOf whole, factor ∣
        ∏ factor ∈ factorsOf whole, factor ^ multiplicity factor whole := by
    refine Finset.prod_dvd_prod_of_dvd _ _ (fun factor member => ?_)
    obtain ⟨isIrreducible, _, divides⟩ := (mem_factorsOf isNonzero).mp member
    refine dvd_pow_self factor ?_
    rw [Ne, multiplicity_eq_zero]
    exact fun notDivides => notDivides divides
  exact dividesPowers.trans (Dvd.intro_left _ (prod_factorsOf isNonzero))

/-- Monic irreducible pieces of a squarefree polynomial are its factors, each once. -/
theorem pieces_of_squarefree
    {pieces : List K[X]}
    (monic : ∀ piece ∈ pieces, piece.Monic)
    (isIrreducible : ∀ piece ∈ pieces, Irreducible piece)
    (product : pieces.prod = whole)
    (squarefree : Squarefree whole) :
    pieces.Nodup ∧
      ∀ piece, piece ∈ pieces ↔ Irreducible piece ∧ piece.Monic ∧ piece ∣ whole := by
  classical
  have isNonzero : whole ≠ 0 := squarefree.ne_zero
  have areFactors : normalizedFactors whole = (pieces : Multiset K[X]) := by
    rw [← product, ← Multiset.prod_coe, normalizedFactors_prod_eq _ isIrreducible]
    calc
      (pieces : Multiset K[X]).map normalize = (pieces : Multiset K[X]).map id :=
        Multiset.map_congr rfl fun piece member => (monic piece member).normalize_eq_self
      _ = pieces := Multiset.map_id _
  constructor
  · rw [← Multiset.coe_nodup, ← areFactors]
    exact (squarefree_iff_nodup_normalizedFactors isNonzero).mp squarefree
  · intro piece
    rw [← Multiset.mem_coe, ← areFactors]
    exact Polynomial.mem_normalizedFactors_iff isNonzero

/-- A bound on the multiplicities of the monic factors holds for all irreducible ones. -/
theorem multiplicity_lt_iff
    (isNonzero : whole ≠ 0)
    {bound : ℕ}
    (positive : 0 < bound) :
    (∀ factor ∈ factorsOf whole, multiplicity factor whole < bound) ↔
      ∀ factor, Irreducible factor → multiplicity factor whole < bound := by
  classical
  constructor
  · intro below factor factorIrreducible
    by_cases divides : factor ∣ whole
    · have member : normalize factor ∈ factorsOf whole := by
        rw [mem_factorsOf isNonzero, (normalize_associated factor).irreducible_iff,
          normalize_dvd_iff]
        exact ⟨factorIrreducible, monic_normalize factorIrreducible.ne_zero, divides⟩
      rw [multiplicity_eq_of_associated_left (normalize_associated factor)]
      exact below (normalize factor) member
    · rw [multiplicity_eq_zero.mpr divides]
      exact positive
  · intro below factor member
    exact below factor ((mem_factorsOf isNonzero).mp member).1

end Factors

end SquarefreeParts
