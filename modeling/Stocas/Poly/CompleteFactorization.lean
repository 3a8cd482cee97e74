import Stocas.Poly.DistinctDegreeSplit
import Stocas.Poly.EqualDegrees

namespace PolyCore

open MultivariatePolynomial
open Outcome (bind_eq_ok ok_bind)
open SquarefreeParts
open SymbolTable (Symbol)

/-!
# The factorization does not depend on the random generator

What is drawn decides in which order the factors are found, and whether the attempts run
out.  When a factorization is returned, its entries are the monic irreducible factors with
their multiplicities modulo the prime, each once.
-/

variable {prime : ℕ} [Fact prime.Prime] {single : Fin 1 → Symbol}

/-- A returned factor, and its multiplicity. -/
noncomputable def FactorTerm.entry (term : FactorTerm single prime) :
    Polynomial (ZMod prime) × ℕ :=
  (term.factor.toPolynomial, term.multiplicity)

theorem entry_injective :
    Function.Injective (FactorTerm.entry : FactorTerm single prime → _) := by
  rintro ⟨factor, multiplicity⟩ ⟨other, otherMultiplicity⟩ same
  obtain ⟨samePolynomial, sameMultiplicity⟩ := Prod.mk.inj same
  exact (FactorTerm.mk.injEq _ _ _ _).mpr
    ⟨toPolynomial_injective samePolynomial, sameMultiplicity⟩

/-- The entries are the irreducible factors whose multiplicity is visible, each once. -/
structure IsComplete
    (f : MultivariatePolynomial single (ZMod prime))
    (factorization : Factorization single prime) : Prop where
  leading : factorization.leadingCoefficient = f.toPolynomial.leadingCoeff
  once : (factorization.factors.map FactorTerm.entry).Nodup
  mem_iff :
    ∀ factor index,
      (factor, index) ∈ factorization.factors.map FactorTerm.entry ↔
        (Irreducible factor ∧ factor.Monic ∧ factor ∣ f.toPolynomial) ∧
          0 < index ∧ index = multiplicity factor f.toPolynomial % prime

/-- What is known of a part of the squarefree decomposition. -/
structure IsPart (part : MultivariatePolynomial single (ZMod prime)) : Prop where
  monic : part.toPolynomial.Monic
  squarefree : Squarefree part.toPolynomial
  nonconstant : 0 < part.toPolynomial.natDegree
  bounded : part.toPolynomial.natDegree ≤ 2 ^ 31

variable (engine : RandomEngine prime)

/-- The factors of a squarefree polynomial, each once. -/
theorem factorSquarefree_complete
    (odd : prime ≠ 2)
    (small : prime < 2 ^ 63)
    {f : MultivariatePolynomial single (ZMod prime)}
    (isPart : IsPart f)
    {factors : List (MultivariatePolynomial single (ZMod prime))}
    {rng next : engine.State}
    (returned : factorSquarefree engine f rng = .ok (factors, next)) :
    (factors.map toPolynomial).Nodup ∧
      ∀ factor,
        factor ∈ factors.map toPolynomial ↔
          Irreducible factor ∧ factor.Monic ∧ factor ∣ f.toPolynomial := by
  have areFactors :=
    factorSquarefree_isFactor engine odd isPart.monic isPart.squarefree isPart.nonconstant
      (Or.inr ⟨small, isPart.bounded⟩) returned
  refine pieces_of_squarefree ?_ ?_ ?_ isPart.squarefree
  · exact List.forall_mem_map.mpr fun factor member => (areFactors factor member).monic
  · exact List.forall_mem_map.mpr fun factor member => (areFactors factor member).irreducible
  · exact factorSquarefree_product engine isPart.monic returned

/-- The entries of one part. -/
theorem map_entry_part
    (factors : List (MultivariatePolynomial single (ZMod prime)))
    (index : ℕ) :
    (factors.map fun factor => (⟨factor, index⟩ : FactorTerm single prime)).map
        FactorTerm.entry =
      (factors.map toPolynomial).map fun factor => (factor, index) := by
  rw [List.map_map, List.map_map]
  rfl

/-- The factors of parts with increasing multiplicities, each once. -/
theorem factorParts_complete
    (odd : prime ≠ 2)
    (small : prime < 2 ^ 63)
    {parts : List (MultivariatePolynomial single (ZMod prime) × ℕ)}
    (areParts : ∀ part ∈ parts, IsPart part.1)
    (increasing : parts.Pairwise fun earlier later => earlier.2 < later.2)
    {factors : List (FactorTerm single prime)}
    {rng : engine.State}
    (returned : factorParts engine parts rng = .ok factors) :
    (factors.map FactorTerm.entry).Nodup ∧
      ∀ factor index,
        (factor, index) ∈ factors.map FactorTerm.entry ↔
          ∃ part ∈ parts,
            part.2 = index ∧
              Irreducible factor ∧ factor.Monic ∧ factor ∣ part.1.toPolynomial := by
  induction parts generalizing factors rng with
  | nil =>
      cases returned
      simp
  | cons part parts inductionHypothesis =>
      obtain ⟨isPart, restParts⟩ := List.forall_mem_cons.mp areParts
      obtain ⟨below, restIncreasing⟩ := List.pairwise_cons.mp increasing
      obtain ⟨⟨first, between⟩, splits, afterSplit⟩ := bind_eq_ok.mp returned
      obtain ⟨rest, continues, finished⟩ := bind_eq_ok.mp afterSplit
      cases finished
      obtain ⟨firstOnce, firstMember⟩ :=
        factorSquarefree_complete engine odd small isPart splits
      obtain ⟨restOnce, restMember⟩ :=
        inductionHypothesis restParts restIncreasing continues
      have mem_first : ∀ factor index,
          (factor, index) ∈
              (first.map toPolynomial).map (fun factor => (factor, part.2)) ↔
            part.2 = index ∧
              Irreducible factor ∧ factor.Monic ∧ factor ∣ part.1.toPolynomial := by
        intro factor index
        rw [← firstMember factor, List.mem_map]
        constructor
        · rintro ⟨other, member, same⟩
          obtain ⟨rfl, rfl⟩ := Prod.mk.inj same
          exact ⟨rfl, member⟩
        · rintro ⟨rfl, member⟩
          exact ⟨factor, member, rfl⟩
      rw [List.map_append, map_entry_part]
      constructor
      · refine List.Nodup.append ?_ restOnce ?_
        · exact firstOnce.map fun factor other same => (Prod.mk.inj same).1
        · rintro ⟨factor, index⟩ inFirst inRest
          obtain ⟨rfl, -⟩ := (mem_first factor index).mp inFirst
          obtain ⟨other, otherMember, same, -⟩ := (restMember factor part.2).mp inRest
          exact absurd same (below other otherMember).ne'
      · intro factor index
        rw [List.mem_append, mem_first, restMember]
        simp only [List.mem_cons, exists_eq_or_imp]

/-- The multiplicity under which a visible factor is listed. -/
theorem index_iff
    {factor whole : Polynomial (ZMod prime)}
    {index : ℕ} :
    (1 ≤ index ∧ index < 1 + prime) ∧
        (multiplicity factor whole : ZMod prime) ≠ 0 ∧
        (multiplicity factor whole : ZMod prime) = index ↔
      0 < index ∧ index = multiplicity factor whole % prime := by
  have positive : 0 < prime := (Fact.out (p := prime.Prime)).pos
  have below := Nat.mod_lt (multiplicity factor whole) positive
  rw [ne_eq, CharP.cast_eq_zero_iff (ZMod prime) prime, Nat.dvd_iff_mod_eq_zero,
    CharP.natCast_eq_natCast (ZMod prime) prime, Nat.ModEq]
  constructor
  · rintro ⟨⟨atLeast, atMost⟩, nonzero, congruent⟩
    refine ⟨atLeast, ?_⟩
    have notLast : index ≠ prime := by
      rintro rfl
      rw [Nat.mod_self] at congruent
      exact nonzero congruent
    rw [congruent, Nat.mod_eq_of_lt (by omega)]
  · rintro ⟨indexPositive, rfl⟩
    exact ⟨⟨indexPositive, by omega⟩, indexPositive.ne', (Nat.mod_mod _ _).symm⟩

/-- The parts of a polynomial of bounded degree. -/
theorem isPart_squarefreePart
    {whole : Polynomial (ZMod prime)}
    (isNonzero : whole ≠ 0)
    (bounded : whole.natDegree ≤ 2 ^ 31)
    {part : MultivariatePolynomial single (ZMod prime)}
    {index : ℕ}
    (same : part.toPolynomial = squarefreePart whole index)
    (nonconstant : 0 < part.toPolynomial.natDegree) :
    IsPart part := by
  have separate := (separate_factorsOf isNonzero).mono
    (visible_subset (factorsOf whole) (multiplicity · whole))
  refine ⟨?_, ?_, nonconstant, ?_⟩
  · rw [same]
    exact separate.monic_part _ index
  · rw [same]
    exact separate.squarefree_part _ index
  · rw [same]
    exact (natDegree_squarefreePart_le isNonzero index).trans bounded

/-- A part divides the polynomial. -/
theorem squarefreePart_dvd
    {whole : Polynomial (ZMod prime)}
    (isNonzero : whole ≠ 0)
    (index : ℕ) :
    squarefreePart whole index ∣ whole := by
  refine dvd_trans (Dvd.intro _ (prod_eq_part_mul _ index).symm) ?_
  refine dvd_trans ?_ (prod_factorsOf_dvd isNonzero)
  exact Finset.prod_dvd_prod_of_subset _ _ _ (visible_subset _ _)

/-- The irreducible factors of a part are the visible ones with its multiplicity. -/
theorem dvd_squarefreePart_iff
    {whole : Polynomial (ZMod prime)}
    (isNonzero : whole ≠ 0)
    {factor : Polynomial (ZMod prime)}
    {index : ℕ} :
    (Irreducible factor ∧ factor.Monic ∧ factor ∣ squarefreePart whole index) ↔
      (Irreducible factor ∧ factor.Monic ∧ factor ∣ whole) ∧
        (multiplicity factor whole : ZMod prime) ≠ 0 ∧
        (multiplicity factor whole : ZMod prime) = index := by
  have separate := separate_factorsOf isNonzero
  constructor
  · rintro ⟨isIrreducible, monic, divides⟩
    have isFactor : Irreducible factor ∧ factor.Monic ∧ factor ∣ whole :=
      ⟨isIrreducible, monic, divides.trans (squarefreePart_dvd isNonzero index)⟩
    have member := (mem_factorsOf isNonzero).mpr isFactor
    exact ⟨isFactor, (separate.dvd_visible_part_iff _ member).mp divides⟩
  · rintro ⟨isFactor, isIndex⟩
    have member := (mem_factorsOf isNonzero).mpr isFactor
    exact ⟨isFactor.1, isFactor.2.1, (separate.dvd_visible_part_iff _ member).mpr isIndex⟩

/-- Every factorization that is returned is complete. -/
theorem isComplete_of_returned
    (small : prime < 2 ^ 63)
    {f : MultivariatePolynomial single (ZMod prime)}
    (bounded : f.toPolynomial.natDegree ≤ 2 ^ 31)
    {rngSeed : ℕ}
    {factorization : Factorization single prime}
    (returned : factorUnivariateFiniteField engine f rngSeed = .ok factorization) :
    IsComplete f factorization := by
  have odd : prime ≠ 2 := by
    rintro rfl
    rw [factorUnivariateFiniteField] at returned
    split at returned
    · cases returned
    · cases returned
  obtain ⟨isNonzero, leading, parts, areParts, continues⟩ :=
    factorUnivariateFiniteField_ok engine returned
  have mem_parts_iff : ∀ part ∈ parts,
      (1 ≤ part.2 ∧ part.2 < 1 + prime) ∧
        part.1.toPolynomial = squarefreePart f.toPolynomial part.2 ∧
        0 < part.1.toPolynomial.natDegree := by
    intro part member
    have listed := List.mem_map_of_mem (f := Prod.map toPolynomial id) member
    rw [areParts] at listed
    exact (mem_partsFrom_iff _).mp listed
  have isPart : ∀ part ∈ parts, IsPart part.1 := by
    intro part member
    obtain ⟨_, same, nonconstant⟩ := mem_parts_iff part member
    exact isPart_squarefreePart isNonzero bounded same nonconstant
  have increasing : parts.Pairwise fun earlier later => earlier.2 < later.2 := by
    have sorted :
        (parts.map (Prod.map toPolynomial id)).Pairwise
          fun earlier later => earlier.2 < later.2 := by
      rw [areParts]
      exact pairwise_partsFrom _ 1 prime fun _ _ _ less _ => less
    rw [List.pairwise_map] at sorted
    exact sorted
  obtain ⟨once, mem_iff⟩ :=
    factorParts_complete engine odd small isPart increasing continues
  refine ⟨leading, once, ?_⟩
  intro factor index
  rw [mem_iff, ← index_iff]
  constructor
  · rintro ⟨part, member, rfl, isFactor⟩
    obtain ⟨inRange, same, _⟩ := mem_parts_iff part member
    rw [same] at isFactor
    obtain ⟨isWholeFactor, isIndex⟩ := (dvd_squarefreePart_iff isNonzero).mp isFactor
    exact ⟨isWholeFactor, inRange, isIndex⟩
  · rintro ⟨isFactor, inRange, isIndex⟩
    have partFactor := (dvd_squarefreePart_iff isNonzero).mpr ⟨isFactor, isIndex⟩
    have partNonzero : squarefreePart f.toPolynomial index ≠ 0 :=
      ne_zero_of_dvd_ne_zero isNonzero (squarefreePart_dvd isNonzero index)
    have nonconstant : 0 < (squarefreePart f.toPolynomial index).natDegree :=
      isFactor.1.natDegree_pos.trans_le
        (Polynomial.natDegree_le_of_dvd partFactor.2.2 partNonzero)
    have listed :
        (squarefreePart f.toPolynomial index, index) ∈
          parts.map (Prod.map toPolynomial id) := by
      rw [areParts]
      exact (mem_partsFrom_iff _).mpr ⟨inRange, rfl, nonconstant⟩
    obtain ⟨part, member, same⟩ := List.mem_map.mp listed
    obtain ⟨samePart, sameIndex⟩ := Prod.mk.inj same
    exact ⟨part, member, sameIndex, samePart ▸ partFactor⟩

/-- The groups are all split, or some attempts run out. -/
theorem factorGroups_outcome
    (odd : prime ≠ 2)
    {groups : List (ℕ × MultivariatePolynomial single (ZMod prime))}
    (monic : ∀ group ∈ groups, group.2.toPolynomial.Monic)
    (positive : ∀ group ∈ groups, 0 < group.1)
    (rng : engine.State) :
    (∃ factors next, factorGroups engine groups rng = .ok (factors, next)) ∨
      factorGroups engine groups rng = .error exhaustedAttempts := by
  induction groups generalizing rng with
  | nil =>
      exact Or.inl ⟨[], rng, rfl⟩
  | cons group groups inductionHypothesis =>
      obtain ⟨groupMonic, restMonic⟩ := List.forall_mem_cons.mp monic
      obtain ⟨groupPositive, restPositive⟩ := List.forall_mem_cons.mp positive
      rw [factorGroups]
      rcases equalDegreeSplit_outcome engine odd groupPositive groupMonic rng with
        ⟨first, next, splits⟩ | exhausted
      · simp only [splits, ok_bind]
        rcases inductionHypothesis restMonic restPositive next with
          ⟨rest, last, continues⟩ | exhausted
        · rw [continues]
          exact Or.inl ⟨first ++ rest, last, rfl⟩
        · rw [exhausted]
          exact Or.inr rfl
      · rw [exhausted]
        exact Or.inr rfl

/-- A part is split, or some attempts run out. -/
theorem factorSquarefree_outcome
    (odd : prime ≠ 2)
    (small : prime < 2 ^ 63)
    {f : MultivariatePolynomial single (ZMod prime)}
    (isPart : IsPart f)
    (rng : engine.State) :
    (∃ factors next, factorSquarefree engine f rng = .ok (factors, next)) ∨
      factorSquarefree engine f rng = .error exhaustedAttempts := by
  have fits : f.Fits := by
    intro term member index
    have atMost := (exponent_le_natDegree member index).trans isPart.bounded
    unfold exponentModulus
    omega
  obtain ⟨groups, splits⟩ :=
    distinctDegreeSplit_returns odd small fits isPart.monic isPart.squarefree
  obtain ⟨groupsMonic, _⟩ := distinctDegreeLoop_product isPart.monic splits
  have degrees :=
    distinctDegreeLoop_degrees small isPart.monic isPart.squarefree isPart.bounded Nat.one_pos
      (show 2 * 1 ≤ 2 ^ 31 + 2 by norm_num)
      (fun factor isIrreducible _ => isIrreducible.natDegree_pos) splits
  rw [factorSquarefree, splits, ok_bind]
  exact factorGroups_outcome engine odd groupsMonic
    (fun group member => (degrees group member).1) rng

/-- The parts are all split, or some attempts run out. -/
theorem factorParts_outcome
    (odd : prime ≠ 2)
    (small : prime < 2 ^ 63)
    {parts : List (MultivariatePolynomial single (ZMod prime) × ℕ)}
    (areParts : ∀ part ∈ parts, IsPart part.1)
    (rng : engine.State) :
    (∃ factors, factorParts engine parts rng = .ok factors) ∨
      factorParts engine parts rng = .error exhaustedAttempts := by
  induction parts generalizing rng with
  | nil =>
      exact Or.inl ⟨[], rfl⟩
  | cons part parts inductionHypothesis =>
      obtain ⟨isPart, restParts⟩ := List.forall_mem_cons.mp areParts
      rw [factorParts]
      rcases factorSquarefree_outcome engine odd small isPart rng with
        ⟨first, next, splits⟩ | exhausted
      · simp only [splits, ok_bind]
        rcases inductionHypothesis restParts next with ⟨rest, continues⟩ | exhausted
        · rw [continues]
          exact Or.inl ⟨_, rfl⟩
        · rw [exhausted]
          exact Or.inr rfl
      · rw [exhausted]
        exact Or.inr rfl

/-- A nonzero polynomial is factored, or some attempts run out. -/
theorem factorUnivariateFiniteField_outcome
    (odd : prime ≠ 2)
    (small : prime < 2 ^ 63)
    {f : MultivariatePolynomial single (ZMod prime)}
    (isNonzero : f.toPolynomial ≠ 0)
    (bounded : f.toPolynomial.natDegree ≤ 2 ^ 31)
    (rngSeed : ℕ) :
    (∃ factorization, factorUnivariateFiniteField engine f rngSeed = .ok factorization) ∨
      factorUnivariateFiniteField engine f rngSeed = .error exhaustedAttempts := by
  obtain ⟨leading, rest, shape⟩ :=
    exists_leading fun isZero => isNonzero (toPolynomial_eq_zero_iff.mpr isZero)
  obtain ⟨normal, normalizes, isNormal⟩ := monicNormalize_toPolynomial isNonzero
  have invertible : f.toPolynomial.leadingCoeff⁻¹ ≠ 0 :=
    inv_ne_zero (Polynomial.leadingCoeff_ne_zero.mpr isNonzero)
  have monic : normal.toPolynomial.Monic := by
    rw [isNormal]
    exact Polynomial.monic_mul_leadingCoeff_inv isNonzero
  have sameDegree : normal.toPolynomial.natDegree = f.toPolynomial.natDegree := by
    rw [isNormal, Polynomial.natDegree_mul_C invertible]
  have factored := prod_factorsOf monic.ne_zero
  rw [monic.leadingCoeff, Polynomial.C_1, one_mul] at factored
  obtain ⟨parts, decomposes, areParts⟩ :=
    squarefreeDecomposition_spec prime (multiplicity · normal.toPolynomial)
      (separate_factorsOf monic.ne_zero) normal factored.symm
  have isPart : ∀ part ∈ parts, IsPart part.1 := by
    intro part member
    obtain ⟨index, same, nonconstant⟩ := mem_parts areParts member
    exact isPart_squarefreePart monic.ne_zero (sameDegree.trans_le bounded) same nonconstant
  rw [factorUnivariateFiniteField, shape]
  simp only [if_neg odd, normalizes, arithmetic, ok_bind, decomposes]
  rcases factorParts_outcome engine odd small isPart (engine.seeded rngSeed) with
    ⟨factors, continues⟩ | exhausted
  · rw [continues]
    exact Or.inl ⟨_, rfl⟩
  · rw [exhausted]
    exact Or.inr rfl

/--
For every engine and seed the factorization of a nonzero polynomial ends: it returns all
irreducible factors with their visible multiplicities, each once, or throws because its
attempts are exhausted.  Any two factorizations that are returned, by whatever engines and
from whatever seeds, differ in the order of their factors only.
-/
theorem factorization_unique
    (odd : prime ≠ 2)
    (small : prime < 2 ^ 63)
    (f : MultivariatePolynomial single (ZMod prime))
    (isNonzero : f.toPolynomial ≠ 0)
    (bounded : f.toPolynomial.natDegree ≤ 2 ^ 31) :
    (∀ (engine : RandomEngine prime) (rngSeed : ℕ),
      (∃ factorization,
        factorUnivariateFiniteField engine f rngSeed = .ok factorization ∧
          IsComplete f factorization) ∨
        factorUnivariateFiniteField engine f rngSeed = .error exhaustedAttempts) ∧
      ∀ (engine otherEngine : RandomEngine prime) (rngSeed otherSeed : ℕ)
        (factorization other : Factorization single prime),
        factorUnivariateFiniteField engine f rngSeed = .ok factorization →
        factorUnivariateFiniteField otherEngine f otherSeed = .ok other →
        factorization.leadingCoefficient = other.leadingCoefficient ∧
          factorization.factors.Perm other.factors := by
  constructor
  · intro engine rngSeed
    refine (factorUnivariateFiniteField_outcome engine odd small isNonzero bounded
      rngSeed).imp ?_ id
    rintro ⟨factorization, returned⟩
    exact ⟨factorization, returned, isComplete_of_returned engine small bounded returned⟩
  · intro engine otherEngine rngSeed otherSeed factorization other returned otherReturned
    have complete := isComplete_of_returned engine small bounded returned
    have otherComplete := isComplete_of_returned otherEngine small bounded otherReturned
    refine ⟨complete.leading.trans otherComplete.leading.symm, ?_⟩
    refine (List.map_perm_map_iff entry_injective).mp ?_
    refine (List.perm_ext_iff_of_nodup complete.once otherComplete.once).mpr ?_
    rintro ⟨factor, index⟩
    rw [complete.mem_iff, otherComplete.mem_iff]

/-- The square of the variable over the field with three elements. -/
theorem factorization_unique_square :
    ∃ factorization,
      factorUnivariateFiniteField (zeroEngine 3) (variablePower 2) 0 = .ok factorization ∧
        ∀ (engine : RandomEngine 3) (rngSeed : ℕ) (other : Factorization oneVariable 3),
          factorUnivariateFiniteField engine (variablePower 2) rngSeed = .ok other →
          factorization.factors.Perm other.factors := by
  have isPower := toPolynomial_variablePower 2
  obtain ⟨_, unique⟩ :=
    factorization_unique (show 3 ≠ 2 by decide) (by norm_num) (variablePower 2)
      (by
        rw [isPower]
        exact pow_ne_zero 2 Polynomial.X_ne_zero)
      (by
        rw [isPower, Polynomial.natDegree_X_pow]
        norm_num)
  obtain ⟨factorization, returned, _⟩ := factor_variablePower 2
  refine ⟨factorization, returned, ?_⟩
  intro engine rngSeed other otherReturned
  exact (unique (zeroEngine 3) engine 0 rngSeed factorization other returned otherReturned).2

end PolyCore
