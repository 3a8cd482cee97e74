import Stocas.Poly.DistinctDegreeSplit

namespace PolyCore

open DegreeParts (FactorsFrom FactorsOf factorsOf_prod)
open MultivariatePolynomial
open Outcome (bind_eq_ok ok_bind)
open SquarefreeParts
open SymbolTable (Symbol)

/-!
# When only irreducible factors are returned

A random splitting stops at pieces of the degree of their group, so what is returned is
irreducible wherever the splitting by degrees is right.  A polynomial whose irreducible
factors have different degrees is factored without a draw.
-/

variable {prime : ℕ} [Fact prime.Prime] {single : Fin 1 → Symbol}

/-- Every exponent that occurs is at most the degree. -/
theorem fits_of_natDegree_lt
    {f : MultivariatePolynomial single (ZMod prime)}
    (below : f.toPolynomial.natDegree < exponentModulus) :
    f.Fits :=
  fun _ member index => (exponent_le_natDegree member index).trans_lt below

/-- The first exponent is the degree. -/
theorem natDegree_lt_of_fits
    {f : MultivariatePolynomial single (ZMod prime)}
    (isNonzero : f.toPolynomial ≠ 0)
    (fits : f.Fits) :
    f.toPolynomial.natDegree < exponentModulus := by
  obtain ⟨leading, rest, shape⟩ :=
    exists_leading (fun isZero => isNonzero (toPolynomial_eq_zero_iff.mpr isZero))
  rw [natDegree_of_terms shape]
  exact fits leading (shape ▸ List.mem_cons_self) 0

/-- A listed group has an irreducible factor of its degree. -/
theorem GroupsByDegree.exists_factor
    {f : MultivariatePolynomial single (ZMod prime)}
    {groups : List (ℕ × MultivariatePolynomial single (ZMod prime))}
    (grouped : GroupsByDegree f groups)
    {group : ℕ × MultivariatePolynomial single (ZMod prime)}
    (member : group ∈ groups)
    (nonconstant : 0 < group.2.toPolynomial.natDegree) :
    ∃ factor ∈ factorsOf f.toPolynomial, factor.natDegree = group.1 := by
  classical
  by_contra none
  have noFactor :
      (factorsOf f.toPolynomial).filter (fun factor => factor.natDegree = group.1) = ∅ :=
    Finset.filter_eq_empty_iff.mpr fun factor isFactor ofDegree =>
      none ⟨factor, isFactor, ofDegree⟩
  have isProduct := grouped.group group member
  rw [noFactor, Finset.prod_empty] at isProduct
  rw [isProduct, Polynomial.natDegree_one] at nonconstant
  exact absurd nonconstant (lt_irrefl 0)

/-- The documented groups have a positive degree, and all their factors are of it. -/
theorem GroupsByDegree.degrees
    {f : MultivariatePolynomial single (ZMod prime)}
    {groups : List (ℕ × MultivariatePolynomial single (ZMod prime))}
    (grouped : GroupsByDegree f groups)
    (isNonzero : f.toPolynomial ≠ 0)
    {group : ℕ × MultivariatePolynomial single (ZMod prime)}
    (member : group ∈ groups)
    (nonconstant : 0 < group.2.toPolynomial.natDegree) :
    0 < group.1 ∧ FactorsOf group.1 group.2.toPolynomial := by
  classical
  have separate := separate_factorsOf isNonzero
  constructor
  · obtain ⟨factor, isFactor, ofDegree⟩ := grouped.exists_factor member nonconstant
    rw [← ofDegree]
    exact (separate.irreducible factor isFactor).natDegree_pos
  · rw [grouped.group group member]
    exact factorsOf_prod (separate.mono (Finset.filter_subset _ _))
      (fun factor inGroup => (Finset.mem_filter.mp inGroup).2)

variable (engine : RandomEngine prime)

/-- Where splitting a squarefree polynomial by degrees is right, or not needed. -/
def Unaffected (part : Polynomial (ZMod prime)) : Prop :=
  part.natDegree ≤ 1 ∨ prime < 2 ^ 63 ∧ PowersSurvive (factorsOf part) 1

/-- The factors of an unaffected squarefree polynomial are irreducible. -/
theorem Unaffected.isFactor
    {f : MultivariatePolynomial single (ZMod prime)}
    {factors : List (MultivariatePolynomial single (ZMod prime))}
    {rng next : engine.State}
    (unaffected : Unaffected f.toPolynomial)
    (odd : prime ≠ 2)
    (fits : f.Fits)
    (monic : f.toPolynomial.Monic)
    (squarefree : Squarefree f.toPolynomial)
    (nonconstant : 0 < f.toPolynomial.natDegree)
    (returned : factorSquarefree engine f rng = .ok (factors, next)) :
    ∀ factor ∈ factors, IsFactor factor.toPolynomial := by
  rcases unaffected with linear | ⟨small, survive⟩
  · exact factorSquarefree_isFactor engine odd monic squarefree nonconstant (Or.inl linear)
      returned
  · obtain ⟨groups, splits, continues⟩ := bind_eq_ok.mp returned
    obtain ⟨groupsMonic, _⟩ := distinctDegreeLoop_product monic splits
    have grouped :=
      (groupsByDegree_returned_iff odd small fits monic squarefree splits).mpr survive
    intro factor member
    obtain ⟨group, groupMember, factorMonic, degree, divides⟩ :=
      (factorGroups_product engine groupsMonic continues).1 factor member
    obtain ⟨positive, ofDegree⟩ := grouped.degrees monic.ne_zero groupMember
      (distinctDegreeLoop_nonconstant monic splits group groupMember)
    exact ⟨factorMonic, degree ▸ positive,
      (ofDegree.of_dvd divides).irreducible positive degree⟩

/-- By every engine and from every seed, only monic irreducible factors are returned. -/
def ReturnsFactors
    {single : Fin 1 → Symbol}
    (f : MultivariatePolynomial single (ZMod prime)) :
    Prop :=
  ∀ (engine : RandomEngine prime) (rngSeed : ℕ) (factorization : Factorization single prime),
    factorUnivariateFiniteField engine f rngSeed = .ok factorization →
    ∀ term ∈ factorization.factors, IsFactor term.factor.toPolynomial

/-- Where no part is affected, all returned factors are irreducible. -/
theorem returnsFactors_of_unaffected
    {f : MultivariatePolynomial single (ZMod prime)}
    (fits : f.Fits)
    (unaffected : ∀ index, Unaffected (squarefreePart f.toPolynomial index)) :
    ReturnsFactors f := by
  intro engine rngSeed factorization returned term member
  obtain ⟨odd, isNonzero, index, part, found, start, next, comes, inFound⟩ :=
    exists_comesFromPart engine returned member
  have partUnaffected : Unaffected part.toPolynomial := by
    rw [comes.isPart]
    exact unaffected index
  have partFits : part.Fits := by
    refine fits_of_natDegree_lt (lt_of_le_of_lt ?_ (natDegree_lt_of_fits isNonzero fits))
    rw [comes.isPart]
    exact natDegree_squarefreePart_le isNonzero index
  exact partUnaffected.isFactor engine odd partFits comes.monic comes.squarefree
    comes.nonconstant comes.splits term.factor inFound

/-- Where no part is affected by a narrow type, all returned factors are irreducible. -/
theorem returnsFactors_of_narrow
    {f : MultivariatePolynomial single (ZMod prime)}
    (narrow : ∀ index, Narrow prime (squarefreePart f.toPolynomial index).natDegree) :
    ReturnsFactors f := by
  intro engine rngSeed factorization returned term member
  obtain ⟨odd, _, index, part, found, start, next, comes, inFound⟩ :=
    exists_comesFromPart engine returned member
  have partNarrow : Narrow prime part.toPolynomial.natDegree := by
    rw [comes.isPart]
    exact narrow index
  exact factorSquarefree_isFactor engine odd comes.monic comes.squarefree comes.nonconstant
    partNarrow comes.splits term.factor inFound

/--
Only irreducible factors are returned where the splitting of every part by degrees is
right, and where no part is affected by a narrow type.  For all polynomials of degree at
most `2^31` this holds when the prime is below `2^63`, and for no other prime.
-/
theorem returnsFactors
    (size : prime < 2 ^ 64) :
    (∀ (single : Fin 1 → Symbol) (f : MultivariatePolynomial single (ZMod prime)),
      f.Fits →
      (∀ index, Unaffected (squarefreePart f.toPolynomial index)) →
      ReturnsFactors f) ∧
    (∀ (single : Fin 1 → Symbol) (f : MultivariatePolynomial single (ZMod prime)),
      (∀ index, Narrow prime (squarefreePart f.toPolynomial index).natDegree) →
      ReturnsFactors f) ∧
    (prime < 2 ^ 63 ↔
      ∀ (single : Fin 1 → Symbol) (f : MultivariatePolynomial single (ZMod prime)),
        f.toPolynomial.natDegree ≤ 2 ^ 31 → ReturnsFactors f) := by
  refine ⟨fun _ _ => returnsFactors_of_unaffected, fun _ _ => returnsFactors_of_narrow,
    ?_, ?_⟩
  · intro small single f bounded engine rngSeed factorization returned
    obtain ⟨isNonzero, _⟩ := factorUnivariateFiniteField_ok engine returned
    refine returnsFactors_of_narrow (fun index => ?_) engine rngSeed factorization returned
    exact Or.inr ⟨small, (natDegree_squarefreePart_le isNonzero index).trans bounded⟩
  · intro allReturn
    by_contra notSmall
    have large : 2 ^ 63 ≤ prime := not_lt.mp notSmall
    have quadratic : (twoRoots prime).toPolynomial.natDegree ≤ 2 ^ 31 := by
      rw [natDegree_twoRoots]
      norm_num
    obtain ⟨factorization, returned, term, member, isWhole⟩ :=
      factor_twoRoots (zeroEngine prime) large size 0
    have isFactor := allReturn _ _ quadratic _ 0 factorization returned term member
    exact not_irreducible_twoRoots (isWhole ▸ isFactor.irreducible)

/-- Groups that are irreducible factors themselves are returned without a draw. -/
theorem factorGroups_whole
    (odd : prime ≠ 2)
    {groups : List (ℕ × MultivariatePolynomial single (ZMod prime))}
    (whole : ∀ group ∈ groups, group.2.toPolynomial.natDegree = group.1)
    (rng : engine.State) :
    factorGroups engine groups rng = .ok (groups.map Prod.snd, rng) := by
  induction groups with
  | nil =>
      rfl
  | cons group groups inductionHypothesis =>
      obtain ⟨isWhole, restWhole⟩ := List.forall_mem_cons.mp whole
      rw [factorGroups, ← isWhole, ← degreeIn_eq_natDegree, equalDegreeSplit_whole engine odd]
      simp only [ok_bind, inductionHypothesis restWhole, List.map_cons, List.singleton_append]

/--
A monic squarefree polynomial whose irreducible factors have different degrees is
factored by every engine and from every seed.
-/
theorem factor_of_differentDegrees
    (odd : prime ≠ 2)
    (small : prime < 2 ^ 63)
    {f : MultivariatePolynomial single (ZMod prime)}
    (monic : f.toPolynomial.Monic)
    (squarefree : Squarefree f.toPolynomial)
    (nonconstant : 0 < f.toPolynomial.natDegree)
    (bounded : f.toPolynomial.natDegree ≤ 2 ^ 31)
    (different :
      ∀ factor ∈ factorsOf f.toPolynomial, ∀ other ∈ factorsOf f.toPolynomial,
        factor.natDegree = other.natDegree → factor = other)
    (rngSeed : ℕ) :
    ∃ factorization,
      factorUnivariateFiniteField engine f rngSeed = .ok factorization := by
  classical
  have fits : f.Fits := by
    refine fits_of_natDegree_lt (bounded.trans_lt ?_)
    norm_num [exponentModulus]
  have separate := separate_factorsOf monic.ne_zero
  have isProduct := prod_factorsOf_squarefree monic squarefree
  obtain ⟨groups, splits⟩ := distinctDegreeSplit_returns odd small fits monic squarefree
  have survive : PowersSurvive (factorsOf f.toPolynomial) 1 :=
    powersSurvive_of_narrow separate (isProduct.symm ▸ bounded)
  have grouped :=
    (groupsByDegree_returned_iff odd small fits monic squarefree splits).mpr survive
  have groupsNonconstant := distinctDegreeLoop_nonconstant monic splits
  have whole : ∀ group ∈ groups, group.2.toPolynomial.natDegree = group.1 := by
    intro group member
    obtain ⟨factor, isFactor, ofDegree⟩ :=
      grouped.exists_factor member (groupsNonconstant group member)
    have onlyFactor :
        (factorsOf f.toPolynomial).filter (fun other => other.natDegree = group.1) =
          {factor} := by
      refine Finset.eq_singleton_iff_unique_mem.mpr
        ⟨Finset.mem_filter.mpr ⟨isFactor, ofDegree⟩, fun other inGroup => ?_⟩
      obtain ⟨isOther, otherDegree⟩ := Finset.mem_filter.mp inGroup
      exact different other isOther factor isFactor (otherDegree.trans ofDegree.symm)
    rw [grouped.group group member, onlyFactor, Finset.prod_singleton, ofDegree]
  have returned : factorSquarefree engine f (engine.seeded rngSeed) =
      .ok (groups.map Prod.snd, engine.seeded rngSeed) := by
    rw [factorSquarefree, splits, ok_bind, factorGroups_whole engine odd whole]
  obtain ⟨leadingCoefficient, factored⟩ :=
    factorUnivariateFiniteField_squarefree engine odd separate isProduct.symm nonconstant
      returned
  exact ⟨_, factored⟩

theorem factorsOf_linearTimesQuadratic :
    ∀ factor ∈ factorsOf linearTimesQuadratic.toPolynomial,
      factor = Polynomial.X ∨ factor = Polynomial.X ^ 2 + Polynomial.C 1 := by
  intro factor member
  obtain ⟨isIrreducible, monic, divides⟩ :=
    (mem_factorsOf monic_linearTimesQuadratic.ne_zero).mp member
  rw [toPolynomial_linearTimesQuadratic] at divides
  rcases isIrreducible.prime.dvd_or_dvd divides with linear | quadratic
  · exact Or.inl (Polynomial.eq_of_monic_of_associated monic Polynomial.monic_X
      (isIrreducible.associated_of_dvd Polynomial.irreducible_X linear))
  · exact Or.inr (Polynomial.eq_of_monic_of_associated monic monic_quadratic
      (isIrreducible.associated_of_dvd irreducible_quadratic quadratic))
/-- Over the field with three elements `x * (x^2 + 1)` is factored. -/
theorem returnsFactors_quadratic :
    ∃ factorization,
      factorUnivariateFiniteField (zeroEngine 3) linearTimesQuadratic 0 =
          .ok factorization ∧
        ∀ term ∈ factorization.factors, IsFactor term.factor.toPolynomial := by
  have degree := natDegree_linearTimesQuadratic
  have bounded : linearTimesQuadratic.toPolynomial.natDegree ≤ 2 ^ 31 := by
    rw [degree]
    norm_num
  have nonconstant : 0 < linearTimesQuadratic.toPolynomial.natDegree := by
    rw [degree]
    norm_num
  have different :
      ∀ factor ∈ factorsOf linearTimesQuadratic.toPolynomial,
        ∀ other ∈ factorsOf linearTimesQuadratic.toPolynomial,
          factor.natDegree = other.natDegree → factor = other := by
    intro factor member other otherMember sameDegree
    rcases factorsOf_linearTimesQuadratic factor member with rfl | rfl <;>
      rcases factorsOf_linearTimesQuadratic other otherMember with rfl | rfl
    · rfl
    · rw [Polynomial.natDegree_X, Polynomial.natDegree_X_pow_add_C] at sameDegree
      omega
    · rw [Polynomial.natDegree_X, Polynomial.natDegree_X_pow_add_C] at sameDegree
      omega
    · rfl
  obtain ⟨factorization, returned⟩ :=
    factor_of_differentDegrees (zeroEngine 3) (by decide) (by norm_num)
      monic_linearTimesQuadratic squarefree_linearTimesQuadratic nonconstant bounded
      different 0
  have size : 3 < 2 ^ 64 := by norm_num
  have allReturn := (returnsFactors size).2.2.mp (by norm_num)
  exact ⟨factorization, returned,
    allReturn oneVariable linearTimesQuadratic bounded (zeroEngine 3) 0 factorization
      returned⟩

end PolyCore
