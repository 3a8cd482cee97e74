import Mathlib.FieldTheory.Finite.Basic
import Stocas.Poly.SquarefreeDecomposition

namespace PolyCore

open GreatestCommonDivisor (IsGcd)
open MultivariatePolynomial
open Outcome (bind_eq_ok ok_bind)
open SquarefreeParts
open SymbolTable (Symbol)

/-!
# The product of the factors that are returned

Splitting by degrees and splitting at random both divide exactly, so whatever they
return multiplies to what they were given.  The parts of the decomposition are
listed under their indices, which are multiplicities modulo the prime.
-/

variable {prime : ℕ} [Fact prime.Prime] {single : Fin 1 → Symbol}

/-- A gcd with a nonzero polynomial is monic, and normalizing leaves it as it is. -/
theorem arithmetic_monicGcd
    {left right common normal : MultivariatePolynomial single (ZMod prime)}
    (isNonzero : left.toPolynomial ≠ 0)
    (isCommon : univariateGcd left right = .ok common)
    (isNormal : monicNormalize common = .ok normal) :
    normal.toPolynomial.Monic ∧
      IsGcd left.toPolynomial right.toPolynomial normal.toPolynomial := by
  obtain ⟨found, returns, isGcd, monic⟩ := univariateGcd_isGcd left right
  have same : found = common := Except.ok.inj (returns.symm.trans isCommon)
  subst same
  have foundNonzero : found.toPolynomial ≠ 0 :=
    fun isZero => isNonzero (zero_dvd_iff.mp (isZero ▸ isGcd.dvd_left))
  rw [monicNormalize_monic (monic foundNonzero)] at isNormal
  cases isNormal
  exact ⟨monic foundNonzero, isGcd⟩

/-- What a step of polynomial arithmetic returned within the factorization. -/
theorem arithmetic_eq_ok
    {α : Type}
    {outcome : Except PolyError α}
    {result : α} :
    arithmetic outcome = .ok result ↔ outcome = .ok result := by
  cases outcome with
  | error error =>
      simp [arithmetic]
  | ok found =>
      simp [arithmetic]

/-- Dividing a monic polynomial by a monic divisor leaves a monic cofactor. -/
theorem univariateDivRem_divisor
    {dividend divisor quotient remainder : MultivariatePolynomial single (ZMod prime)}
    (dividendMonic : dividend.toPolynomial.Monic)
    (divisorMonic : divisor.toPolynomial.Monic)
    (divides : divisor.toPolynomial ∣ dividend.toPolynomial)
    (returned : univariateDivRem dividend divisor = .ok (quotient, remainder)) :
    quotient.toPolynomial.Monic ∧
      divisor.toPolynomial * quotient.toPolynomial = dividend.toPolynomial := by
  obtain ⟨cofactor, product⟩ := divides
  obtain ⟨_, _, returns, isCofactor⟩ := univariateDivRem_mul divisorMonic product
  rw [returns] at returned
  cases returned
  rw [isCofactor]
  exact ⟨divisorMonic.of_mul_monic_left (product ▸ dividendMonic), product.symm⟩

/-- The product of a list of polynomials. -/
noncomputable def productOf
    (polys : List (MultivariatePolynomial single (ZMod prime))) :
    Polynomial (ZMod prime) :=
  (polys.map toPolynomial).prod

@[simp] theorem productOf_nil :
    productOf ([] : List (MultivariatePolynomial single (ZMod prime))) = 1 :=
  rfl

@[simp] theorem productOf_cons
    (poly : MultivariatePolynomial single (ZMod prime))
    (polys : List (MultivariatePolynomial single (ZMod prime))) :
    productOf (poly :: polys) = poly.toPolynomial * productOf polys := by
  simp [productOf]

@[simp] theorem productOf_append
    (polys others : List (MultivariatePolynomial single (ZMod prime))) :
    productOf (polys ++ others) = productOf polys * productOf others := by
  simp [productOf]

/--
A round of the loop divides out the gcd with `frobenius - x`, which is listed unless
it is constant.
-/
structure DegreeRound
    (d : ℕ)
    (remaining next frobenius g : MultivariatePolynomial single (ZMod prime))
    (rest groups : List (ℕ × MultivariatePolynomial single (ZMod prime))) :
    Prop where
  powmod :
    polyPowmod (xPoly prime) (bigintPow (primeBig prime) d) remaining = .ok frobenius
  isGcd :
    IsGcd remaining.toPolynomial (frobenius.toPolynomial - Polynomial.X) g.toPolynomial
  monic : g.toPolynomial.Monic
  nextMonic : next.toPolynomial.Monic
  product : g.toPolynomial * next.toPolynomial = remaining.toPolynomial
  listed :
    0 < g.toPolynomial.natDegree ∧ groups = (d, g) :: rest ∨
      g.toPolynomial = 1 ∧ groups = rest

/-- The loop ends with what is left, or makes a round and goes on. -/
theorem distinctDegreeLoop_cases
    {rounds d : ℕ}
    {remaining : MultivariatePolynomial single (ZMod prime)}
    {groups : List (ℕ × MultivariatePolynomial single (ZMod prime))}
    (monic : remaining.toPolynomial.Monic)
    (returned : distinctDegreeLoop prime rounds d remaining = .ok groups) :
    (remaining.toPolynomial = 1 ∧ groups = []) ∨
    (remaining.toPolynomial.natDegree < 2 * d % exponentModulus ∧
      0 < remaining.toPolynomial.natDegree ∧
      groups = [(remaining.toPolynomial.natDegree, remaining)]) ∨
    (2 * d % exponentModulus ≤ remaining.toPolynomial.natDegree ∧
      ∃ fewer next frobenius g rest,
        rounds = fewer + 1 ∧
        distinctDegreeLoop prime fewer ((d + 1) % exponentModulus) next = .ok rest ∧
        DegreeRound d remaining next frobenius g rest groups) := by
  rw [distinctDegreeLoop.eq_def] at returned
  simp only [degreeIn_eq_natDegree] at returned
  split at returned
  · rename_i goesOn
    refine Or.inr (Or.inr ⟨goesOn, ?_⟩)
    cases rounds with
    | zero =>
        cases returned
    | succ fewer =>
        obtain ⟨frobenius, powmod, afterPowmod⟩ := bind_eq_ok.mp returned
        obtain ⟨common, isCommon, afterGcd⟩ := bind_eq_ok.mp afterPowmod
        obtain ⟨g, isNormal, afterNormal⟩ := bind_eq_ok.mp afterGcd
        obtain ⟨gMonic, isGcd⟩ :=
          arithmetic_monicGcd monic.ne_zero (arithmetic_eq_ok.mp isCommon)
            (arithmetic_eq_ok.mp isNormal)
        have isGcdX :
            IsGcd remaining.toPolynomial (frobenius.toPolynomial - Polynomial.X)
              g.toPolynomial := by
          simpa [xPoly, Polynomial.X] using isGcd
        split at afterNormal
        · rename_i nonconstant
          obtain ⟨⟨quotient, _⟩, divided, afterDivision⟩ := bind_eq_ok.mp afterNormal
          obtain ⟨rest, loops, finished⟩ := bind_eq_ok.mp afterDivision
          cases finished
          obtain ⟨quotientMonic, product⟩ :=
            univariateDivRem_divisor monic gMonic isGcd.dvd_left
              (arithmetic_eq_ok.mp divided)
          exact ⟨fewer, quotient, frobenius, g, rest, rfl, loops,
            arithmetic_eq_ok.mp powmod, isGcdX, gMonic, quotientMonic, product,
            Or.inl ⟨nonconstant, rfl⟩⟩
        · rename_i constant
          have isOne : g.toPolynomial = 1 :=
            Polynomial.eq_one_of_monic_natDegree_zero gMonic (by omega)
          exact ⟨fewer, remaining, frobenius, g, groups, rfl, afterNormal,
            arithmetic_eq_ok.mp powmod, isGcdX, gMonic, monic, by rw [isOne, one_mul],
            Or.inr ⟨isOne, rfl⟩⟩
  · rename_i ends
    split at returned
    · rename_i nonconstant
      cases returned
      exact Or.inr (Or.inl ⟨not_le.mp ends, nonconstant, rfl⟩)
    · rename_i constant
      cases returned
      exact Or.inl
        ⟨Polynomial.eq_one_of_monic_natDegree_zero monic (by omega), rfl⟩

/-- The groups of the loop are monic and multiply to what was left. -/
theorem distinctDegreeLoop_product
    {rounds d : ℕ}
    {remaining : MultivariatePolynomial single (ZMod prime)}
    {groups : List (ℕ × MultivariatePolynomial single (ZMod prime))}
    (monic : remaining.toPolynomial.Monic)
    (returned : distinctDegreeLoop prime rounds d remaining = .ok groups) :
    (∀ group ∈ groups, group.2.toPolynomial.Monic) ∧
      productOf (groups.map Prod.snd) = remaining.toPolynomial := by
  induction rounds generalizing d remaining groups with
  | zero =>
      rcases distinctDegreeLoop_cases monic returned with
        ⟨isOne, rfl⟩ | ⟨_, _, rfl⟩ | ⟨_, fewer, _, _, _, _, impossible, _⟩
      · simp [isOne]
      · simp [monic]
      · cases impossible
  | succ rounds inductionHypothesis =>
      rcases distinctDegreeLoop_cases monic returned with
        ⟨isOne, rfl⟩ | ⟨_, _, rfl⟩ | ⟨_, fewer, next, _, g, rest, same, loops, round⟩
      · simp [isOne]
      · simp [monic]
      · cases same
        obtain ⟨restMonic, restProduct⟩ := inductionHypothesis round.nextMonic loops
        rcases round.listed with ⟨_, rfl⟩ | ⟨isOne, rfl⟩
        · refine ⟨?_, ?_⟩
          · intro group member
            rcases List.mem_cons.mp member with rfl | inRest
            · exact round.monic
            · exact restMonic group inRest
          · rw [List.map_cons, productOf_cons, restProduct, round.product]
        · refine ⟨restMonic, ?_⟩
          rw [restProduct, ← round.product, isOne, one_mul]

section Splitting

variable (engine : RandomEngine prime)

/-- An attempt's candidate divides the polynomial and is monic. -/
theorem splitCandidate_divides
    {exponent : ℤ}
    {poly r g : MultivariatePolynomial single (ZMod prime)}
    (isNonzero : poly.toPolynomial ≠ 0)
    (returned : splitCandidate exponent poly r = .ok g) :
    g.toPolynomial.Monic ∧ g.toPolynomial ∣ poly.toPolynomial := by
  obtain ⟨common, isCommon, afterGcd⟩ := bind_eq_ok.mp returned
  obtain ⟨normal, isNormal, afterNormal⟩ := bind_eq_ok.mp afterGcd
  split at afterNormal
  · obtain ⟨power, _, afterPower⟩ := bind_eq_ok.mp afterNormal
    obtain ⟨second, isSecond, secondNormal⟩ := bind_eq_ok.mp afterPower
    obtain ⟨monic, isGcd⟩ := arithmetic_monicGcd isNonzero isSecond secondNormal
    exact ⟨monic, isGcd.dvd_left⟩
  · cases afterNormal
    obtain ⟨monic, isGcd⟩ := arithmetic_monicGcd isNonzero isCommon isNormal
    exact ⟨monic, isGcd.dvd_left⟩

/-- The attempts return a factorization into two monic polynomials. -/
theorem splitAttempts_product
    {exponent : ℤ}
    {poly g quotient : MultivariatePolynomial single (ZMod prime)}
    {attempts : ℕ}
    {rng next : engine.State}
    (monic : poly.toPolynomial.Monic)
    (returned :
      splitAttempts engine exponent poly attempts rng = .ok ((g, quotient), next)) :
    g.toPolynomial.Monic ∧ quotient.toPolynomial.Monic ∧
      g.toPolynomial * quotient.toPolynomial = poly.toPolynomial := by
  induction attempts generalizing rng with
  | zero =>
      cases returned
  | succ attempts inductionHypothesis =>
      rw [splitAttempts] at returned
      split at returned
      split at returned
      · exact inductionHypothesis returned
      · obtain ⟨candidate, isCandidate, afterCandidate⟩ := bind_eq_ok.mp returned
        obtain ⟨candidateMonic, divides⟩ :=
          splitCandidate_divides monic.ne_zero (arithmetic_eq_ok.mp isCandidate)
        split at afterCandidate
        · obtain ⟨⟨cofactor, _⟩, divided, finished⟩ := bind_eq_ok.mp afterCandidate
          cases finished
          obtain ⟨quotientMonic, product⟩ :=
            univariateDivRem_divisor monic candidateMonic divides
              (arithmetic_eq_ok.mp divided)
          exact ⟨candidateMonic, quotientMonic, product⟩
        · exact inductionHypothesis afterCandidate

/-- The loop adds monic polynomials of one degree that multiply to the pending ones. -/
theorem equalDegreeLoop_spec
    {exponent : ℤ}
    {d rounds : ℕ}
    {pending result last : List (MultivariatePolynomial single (ZMod prime))}
    {rng next : engine.State}
    (monic : ∀ poly ∈ pending, poly.toPolynomial.Monic)
    (returned :
      equalDegreeLoop engine exponent d rounds pending result rng = .ok (last, next)) :
    ∃ added,
      last = result ++ added ∧
      (∀ factor ∈ added,
        factor.toPolynomial.Monic ∧ factor.toPolynomial.natDegree = d) ∧
      productOf added = productOf pending := by
  induction rounds generalizing pending result rng with
  | zero =>
      cases pending with
      | nil =>
          cases returned
          exact ⟨[], by simp, by simp, rfl⟩
      | cons poly pending =>
          cases returned
  | succ rounds inductionHypothesis =>
      cases pending with
      | nil =>
          cases returned
          exact ⟨[], by simp, by simp, rfl⟩
      | cons poly pending =>
          obtain ⟨polyMonic, pendingMonic⟩ := List.forall_mem_cons.mp monic
          rw [equalDegreeLoop] at returned
          split at returned
          · rename_i reached
            obtain ⟨added, isLast, addedMonic, product⟩ :=
              inductionHypothesis pendingMonic returned
            refine ⟨poly :: added, by simp [isLast], ?_, ?_⟩
            · rw [degreeIn_eq_natDegree] at reached
              exact List.forall_mem_cons.mpr ⟨⟨polyMonic, reached⟩, addedMonic⟩
            · rw [productOf_cons, productOf_cons, product]
          · obtain ⟨⟨⟨g, quotient⟩, between⟩, splits, loops⟩ := bind_eq_ok.mp returned
            obtain ⟨gMonic, quotientMonic, product⟩ :=
              splitAttempts_product engine polyMonic splits
            have bothMonic :
                ∀ piece ∈ quotient :: g :: pending, piece.toPolynomial.Monic :=
              List.forall_mem_cons.mpr
                ⟨quotientMonic, List.forall_mem_cons.mpr ⟨gMonic, pendingMonic⟩⟩
            obtain ⟨added, isLast, addedMonic, addedProduct⟩ :=
              inductionHypothesis bothMonic loops
            refine ⟨added, isLast, addedMonic, ?_⟩
            rw [addedProduct, productOf_cons, productOf_cons, productOf_cons, ← product]
            ring

/-- `equal_degree_split` returns monic factors of the degree asked for. -/
theorem equalDegreeSplit_spec
    {f : MultivariatePolynomial single (ZMod prime)}
    {d : ℕ}
    {factors : List (MultivariatePolynomial single (ZMod prime))}
    {rng next : engine.State}
    (monic : f.toPolynomial.Monic)
    (returned : equalDegreeSplit engine f d rng = .ok (factors, next)) :
    (∀ factor ∈ factors,
      factor.toPolynomial.Monic ∧ factor.toPolynomial.natDegree = d) ∧
      productOf factors = f.toPolynomial := by
  rw [equalDegreeSplit] at returned
  split at returned
  · cases returned
  · obtain ⟨added, isLast, addedMonic, product⟩ :=
      equalDegreeLoop_spec engine (by simpa using monic) returned
    rw [List.nil_append] at isLast
    subst isLast
    exact ⟨addedMonic, by simpa using product⟩

/-- The factors of the groups are monic and multiply to the groups. -/
theorem factorGroups_product
    {groups : List (ℕ × MultivariatePolynomial single (ZMod prime))}
    {factors : List (MultivariatePolynomial single (ZMod prime))}
    {rng next : engine.State}
    (monic : ∀ group ∈ groups, group.2.toPolynomial.Monic)
    (returned : factorGroups engine groups rng = .ok (factors, next)) :
    (∀ factor ∈ factors, ∃ group ∈ groups,
      factor.toPolynomial.Monic ∧ factor.toPolynomial.natDegree = group.1 ∧
        factor.toPolynomial ∣ group.2.toPolynomial) ∧
      productOf factors = productOf (groups.map Prod.snd) := by
  induction groups generalizing factors rng with
  | nil =>
      cases returned
      exact ⟨by simp, rfl⟩
  | cons group groups inductionHypothesis =>
      obtain ⟨groupMonic, restMonic⟩ := List.forall_mem_cons.mp monic
      obtain ⟨⟨first, between⟩, splits, afterSplit⟩ := bind_eq_ok.mp returned
      obtain ⟨⟨rest, last⟩, continues, finished⟩ := bind_eq_ok.mp afterSplit
      cases finished
      obtain ⟨firstSpec, firstProduct⟩ := equalDegreeSplit_spec engine groupMonic splits
      obtain ⟨restSpec, restProduct⟩ := inductionHypothesis restMonic continues
      refine ⟨?_, by simp [firstProduct, restProduct]⟩
      intro factor member
      rcases List.mem_append.mp member with inFirst | inRest
      · refine ⟨group, by simp, (firstSpec factor inFirst).1, (firstSpec factor inFirst).2, ?_⟩
        rw [← firstProduct]
        exact List.dvd_prod (List.mem_map_of_mem inFirst)
      · obtain ⟨found, foundMember, spec⟩ := restSpec factor inRest
        exact ⟨found, List.mem_cons_of_mem group foundMember, spec⟩

/-- `factor_squarefree` returns factors of the polynomial it was given. -/
theorem factorSquarefree_product
    {f : MultivariatePolynomial single (ZMod prime)}
    {factors : List (MultivariatePolynomial single (ZMod prime))}
    {rng next : engine.State}
    (monic : f.toPolynomial.Monic)
    (returned : factorSquarefree engine f rng = .ok (factors, next)) :
    productOf factors = f.toPolynomial := by
  obtain ⟨groups, splits, continues⟩ := bind_eq_ok.mp returned
  obtain ⟨groupsMonic, product⟩ := distinctDegreeLoop_product monic splits
  rw [(factorGroups_product engine groupsMonic continues).2, product]

/-- What a list of factors with their multiplicities multiplies to. -/
noncomputable def termsProduct
    (factors : List (FactorTerm single prime)) :
    Polynomial (ZMod prime) :=
  (factors.map (fun term => term.factor.toPolynomial ^ term.multiplicity)).prod

/-- `leading_coefficient * product(factor^multiplicity)`. -/
noncomputable def Factorization.value
    (factorization : Factorization single prime) :
    Polynomial (ZMod prime) :=
  Polynomial.C factorization.leadingCoefficient * termsProduct factorization.factors

/-- The factors of the parts multiply to the powers of the parts. -/
theorem factorParts_product
    {parts : List (MultivariatePolynomial single (ZMod prime) × ℕ)}
    {factors : List (FactorTerm single prime)}
    {rng : engine.State}
    (monic : ∀ part ∈ parts, part.1.toPolynomial.Monic)
    (returned : factorParts engine parts rng = .ok factors) :
    termsProduct factors =
      (parts.map (fun part => part.1.toPolynomial ^ part.2)).prod := by
  induction parts generalizing factors rng with
  | nil =>
      cases returned
      rfl
  | cons part parts inductionHypothesis =>
      obtain ⟨partMonic, restMonic⟩ := List.forall_mem_cons.mp monic
      obtain ⟨⟨first, between⟩, splits, afterSplit⟩ := bind_eq_ok.mp returned
      obtain ⟨rest, continues, finished⟩ := bind_eq_ok.mp afterSplit
      cases finished
      have firstProduct := factorSquarefree_product engine partMonic splits
      have restProduct := inductionHypothesis restMonic continues
      have powers :
          (first.map (fun factor => factor.toPolynomial ^ part.2)).prod =
            productOf first ^ part.2 := by
        have mapped := map_list_prod (powMonoidHom part.2) (first.map toPolynomial)
        rw [List.map_map] at mapped
        exact mapped.symm
      rw [termsProduct, List.map_append, List.prod_append, List.map_map, List.map_cons,
        List.prod_cons, ← firstProduct, ← restProduct, termsProduct, ← powers]
      rfl

/-- What the whole algorithm returns comes from the decomposition and its parts. -/
theorem factorUnivariateFiniteField_ok
    {f : MultivariatePolynomial single (ZMod prime)}
    {rngSeed : ℕ}
    {factorization : Factorization single prime}
    (returned : factorUnivariateFiniteField engine f rngSeed = .ok factorization) :
    f.toPolynomial ≠ 0 ∧
      factorization.leadingCoefficient = f.toPolynomial.leadingCoeff ∧
      ∃ parts,
        parts.map (Prod.map toPolynomial id) =
          partsFrom
            (visible (factorsOf f.toPolynomial) (multiplicity · f.toPolynomial))
            (multiplicity · f.toPolynomial) 1 prime ∧
        factorParts engine parts (engine.seeded rngSeed) = .ok factorization.factors := by
  rw [factorUnivariateFiniteField] at returned
  split at returned
  · cases returned
  · rename_i leading rest shape
    split at returned
    · cases returned
    · obtain ⟨monicF, normalizes, afterNormal⟩ := bind_eq_ok.mp returned
      obtain ⟨parts, decomposes, afterParts⟩ := bind_eq_ok.mp afterNormal
      obtain ⟨factors, continues, finished⟩ := bind_eq_ok.mp afterParts
      cases finished
      have isNonzero : f.toPolynomial ≠ 0 := by
        rw [Ne, toPolynomial_eq_zero_iff, toMvPolynomial_eq_zero_iff, shape]
        exact List.cons_ne_nil leading rest
      obtain ⟨normal, returns, isNormal⟩ := monicNormalize_toPolynomial isNonzero
      have same : normal = monicF :=
        Except.ok.inj (returns.symm.trans (arithmetic_eq_ok.mp normalizes))
      subst same
      have normalFactors :
          normal.toPolynomial =
            ∏ factor ∈ factorsOf f.toPolynomial,
              factor ^ multiplicity factor f.toPolynomial := by
        have leadingNonzero := Polynomial.leadingCoeff_ne_zero.mpr isNonzero
        have factored := prod_factorsOf isNonzero
        have cancels :
            Polynomial.C f.toPolynomial.leadingCoeff *
              Polynomial.C f.toPolynomial.leadingCoeff⁻¹ = 1 := by
          rw [← map_mul, mul_inv_cancel₀ leadingNonzero, map_one]
        rw [isNormal]
        linear_combination
          (-Polynomial.C f.toPolynomial.leadingCoeff⁻¹) * factored +
            (∏ factor ∈ factorsOf f.toPolynomial,
              factor ^ multiplicity factor f.toPolynomial) * cancels
      obtain ⟨found, decomposition, areParts⟩ :=
        squarefreeDecomposition_spec prime (multiplicity · f.toPolynomial)
          (separate_factorsOf isNonzero) normal normalFactors
      have sameParts : found = parts :=
        Except.ok.inj (decomposition.symm.trans decomposes)
      subst sameParts
      exact ⟨isNonzero, (leadingCoeff_toPolynomial shape).symm, found, areParts, continues⟩

/-- A part of the decomposition is one of the listed products, and not constant. -/
theorem mem_parts
    {factors : Finset (Polynomial (ZMod prime))}
    {multiplicities : Polynomial (ZMod prime) → ℕ}
    {parts : List (MultivariatePolynomial single (ZMod prime) × ℕ)}
    {first count : ℕ}
    (areParts :
      parts.map (Prod.map toPolynomial id) =
        partsFrom factors multiplicities first count)
    {part : MultivariatePolynomial single (ZMod prime) × ℕ}
    (member : part ∈ parts) :
    ∃ index,
      part.1.toPolynomial = SquarefreeParts.part factors multiplicities index ∧
      0 < part.1.toPolynomial.natDegree := by
  have mapped := List.mem_map_of_mem (f := Prod.map toPolynomial id) member
  rw [areParts] at mapped
  obtain ⟨listed, nonconstant⟩ := List.mem_filter.mp mapped
  obtain ⟨index, _, same⟩ := List.mem_map.mp listed
  exact ⟨index, (congrArg Prod.fst same).symm, of_decide_eq_true nonconstant⟩

theorem parts_powers
    (parts : List (MultivariatePolynomial single (ZMod prime) × ℕ)) :
    parts.map (fun part => part.1.toPolynomial ^ part.2) =
      (parts.map (Prod.map toPolynomial id)).map (fun entry => entry.1 ^ entry.2) := by
  rw [List.map_map]
  rfl

/-- The returned factors multiply to powers with multiplicities modulo the prime. -/
theorem factorUnivariateFiniteField_value
    {f : MultivariatePolynomial single (ZMod prime)}
    {rngSeed : ℕ}
    {factorization : Factorization single prime}
    (returned : factorUnivariateFiniteField engine f rngSeed = .ok factorization) :
    factorization.value =
      Polynomial.C f.toPolynomial.leadingCoeff *
        ∏ factor ∈ factorsOf f.toPolynomial,
          factor ^ (multiplicity factor f.toPolynomial % prime) := by
  obtain ⟨isNonzero, leading, parts, areParts, continues⟩ :=
    factorUnivariateFiniteField_ok engine returned
  have partsMonic : ∀ part ∈ parts, part.1.toPolynomial.Monic := by
    intro part member
    obtain ⟨index, isPart, _⟩ := mem_parts areParts member
    rw [isPart]
    exact ((separate_factorsOf isNonzero).mono (visible_subset _ _)).monic_part _ index
  have product := factorParts_product engine partsMonic continues
  rw [Factorization.value, leading, product, parts_powers, areParts,
    (separate_factorsOf isNonzero).prod_visible_partsFrom (multiplicity · f.toPolynomial)
      prime]

/-- A group of the degree it is listed under is not split. -/
theorem equalDegreeSplit_whole
    (odd : prime ≠ 2)
    (f : MultivariatePolynomial single (ZMod prime))
    (rng : engine.State) :
    equalDegreeSplit engine f (f.degreeIn 0) rng = .ok ([f], rng) := by
  rw [equalDegreeSplit, if_neg odd, equalDegreeLoop, if_pos rfl]
  cases 2 * f.degreeIn 0 with
  | zero =>
      rfl
  | succ rounds =>
      rfl

/-- A polynomial that is a group of its own is returned as it is. -/
theorem factorSquarefree_whole
    (odd : prime ≠ 2)
    {f : MultivariatePolynomial single (ZMod prime)}
    (group : distinctDegreeSplit prime f = .ok [(f.degreeIn 0, f)])
    (rng : engine.State) :
    factorSquarefree engine f rng = .ok ([f], rng) := by
  rw [factorSquarefree, group, ok_bind]
  simp only [factorGroups, equalDegreeSplit_whole engine odd, ok_bind, List.append_nil]

/-- A polynomial of degree one is a group of its own, and is not split further. -/
theorem factorSquarefree_linear
    (odd : prime ≠ 2)
    {f : MultivariatePolynomial single (ZMod prime)}
    (linear : f.toPolynomial.natDegree = 1)
    (rng : engine.State) :
    factorSquarefree engine f rng = .ok ([f], rng) := by
  have degree : f.degreeIn 0 = 1 := by
    rw [degreeIn_eq_natDegree, linear]
  refine factorSquarefree_whole engine odd ?_ rng
  rw [distinctDegreeSplit, distinctDegreeLoop.eq_def]
  simp [degree, exponentModulus]

theorem factorParts_linear
    (odd : prime ≠ 2)
    {parts : List (MultivariatePolynomial single (ZMod prime) × ℕ)}
    (linear : ∀ part ∈ parts, part.1.toPolynomial.natDegree = 1)
    (rng : engine.State) :
    factorParts engine parts rng =
      .ok (parts.map (fun part => ⟨part.1, part.2⟩)) := by
  induction parts with
  | nil =>
      rfl
  | cons part parts inductionHypothesis =>
      obtain ⟨partLinear, restLinear⟩ := List.forall_mem_cons.mp linear
      rw [factorParts, factorSquarefree_linear engine odd partLinear, ok_bind]
      simp only [inductionHypothesis restLinear, ok_bind, List.map_cons, List.map_nil,
        List.singleton_append]

/-- A power of a monic linear polynomial is returned with its visible multiplicity. -/
theorem factorUnivariateFiniteField_power
    (odd : prime ≠ 2)
    {f : MultivariatePolynomial single (ZMod prime)}
    {base : Polynomial (ZMod prime)}
    (separate : Separate {base})
    (linear : base.natDegree = 1)
    (count : ℕ)
    (isPower : f.toPolynomial = base ^ count)
    (rngSeed : ℕ) :
    ∃ factorization,
      factorUnivariateFiniteField engine f rngSeed = .ok factorization ∧
      factorization.value = base ^ (count % prime) := by
  have baseMonic := separate.monic base (by simp)
  have monic : f.toPolynomial.Monic := isPower ▸ baseMonic.pow count
  obtain ⟨leading, rest, shape⟩ :=
    exists_leading (fun isZero => monic.ne_zero (toPolynomial_eq_zero_iff.mpr isZero))
  obtain ⟨parts, decomposes, areParts⟩ :=
    squarefreeDecomposition_spec prime (fun _ => count) separate f (by simp [isPower])
  have partsLinear : ∀ part ∈ parts, part.1.toPolynomial.natDegree = 1 := by
    intro part member
    obtain ⟨index, isPart, nonconstant⟩ := mem_parts areParts member
    rw [isPart] at nonconstant ⊢
    exact natDegree_part_singleton linear nonconstant
  have partsMonic : ∀ part ∈ parts, part.1.toPolynomial.Monic := by
    intro part member
    obtain ⟨index, isPart, _⟩ := mem_parts areParts member
    rw [isPart]
    exact (separate.mono (visible_subset _ _)).monic_part _ index
  have continues := factorParts_linear engine odd partsLinear (engine.seeded rngSeed)
  have product := factorParts_product engine partsMonic continues
  refine ⟨⟨leading.2, parts.map (fun part => ⟨part.1, part.2⟩)⟩, ?_, ?_⟩
  · rw [factorUnivariateFiniteField, shape]
    simp only [if_neg odd, monicNormalize_monic monic, arithmetic, ok_bind, decomposes,
      continues]
  · have isOne : leading.2 = 1 := by
      rw [← leadingCoeff_toPolynomial shape, monic.leadingCoeff]
    rw [Factorization.value, isOne, map_one, one_mul, product, parts_powers, areParts,
      separate.prod_visible_partsFrom (fun _ => count) prime, Finset.prod_singleton]

/--
The product of the returned factors is the polynomial exactly when no irreducible
factor has a multiplicity of `prime` or more.
-/
theorem factorization_value_eq_iff
    (f : MultivariatePolynomial single (ZMod prime))
    (rngSeed : ℕ)
    (factorization : Factorization single prime)
    (returned : factorUnivariateFiniteField engine f rngSeed = .ok factorization) :
    factorization.value = f.toPolynomial ↔
      ∀ factor, Irreducible factor → multiplicity factor f.toPolynomial < prime := by
  obtain ⟨isNonzero, _⟩ := factorUnivariateFiniteField_ok engine returned
  have positive : 0 < prime := (Fact.out (p := prime.Prime)).pos
  have leadingNonzero : Polynomial.C f.toPolynomial.leadingCoeff ≠ 0 :=
    Polynomial.C_ne_zero.mpr (Polynomial.leadingCoeff_ne_zero.mpr isNonzero)
  rw [← multiplicity_lt_iff isNonzero positive,
    ← (separate_factorsOf isNonzero).prod_mod_eq_iff _ positive,
    factorUnivariateFiniteField_value engine returned]
  constructor
  · intro same
    refine mul_left_cancel₀ leadingNonzero ?_
    rw [same, prod_factorsOf isNonzero]
  · intro same
    rw [same, prod_factorsOf isNonzero]

end Splitting

/-- An engine for inputs on which nothing is drawn. -/
def zeroEngine (prime : ℕ) [Fact prime.Prime] : RandomEngine prime where
  State := Unit
  seeded _ := ()
  draw rng := (⟨0, (Fact.out (p := prime.Prime)).pos⟩, rng)

/-- A power of the only variable. -/
def variablePower (count : ℕ) : MultivariatePolynomial oneVariable (ZMod 3) :=
  fromTerm ⟨fun _ => count⟩ 1

theorem toPolynomial_variablePower
    (count : ℕ) :
    (variablePower count).toPolynomial = Polynomial.X ^ count := by
  rw [variablePower, toPolynomial_fromTerm, ← Polynomial.X_pow_eq_monomial]

/-- A power of the variable is returned with its exponent modulo three. -/
theorem factor_variablePower
    (count : ℕ) :
    ∃ factorization,
      factorUnivariateFiniteField (zeroEngine 3) (variablePower count) 0 =
        .ok factorization ∧
      factorization.value = Polynomial.X ^ (count % 3) := by
  have separate : Separate {(Polynomial.X : Polynomial (ZMod 3))} :=
    { irreducible := by simpa using Polynomial.irreducible_X
      monic := by simp
      separable := by simpa using Polynomial.separable_X }
  exact factorUnivariateFiniteField_power (zeroEngine 3) (by decide) separate
    Polynomial.natDegree_X count (toPolynomial_variablePower count) 0

theorem factorization_value_eq_iff_square :
    ∃ factorization,
      factorUnivariateFiniteField (zeroEngine 3) (variablePower 2) 0 = .ok factorization ∧
      (factorization.value = (variablePower 2).toPolynomial ↔
        ∀ factor, Irreducible factor →
          multiplicity factor (variablePower 2).toPolynomial < 3) := by
  obtain ⟨factorization, returned, _⟩ := factor_variablePower 2
  exact ⟨factorization, returned,
    factorization_value_eq_iff (zeroEngine 3) (variablePower 2) 0 factorization returned⟩

/--
Modulo three the fourth power of the variable is returned as the variable itself, and
four is not a multiple of three.
-/
theorem factor_fourth_power :
    (∀ factor, Irreducible factor → factor ∣ (variablePower 4).toPolynomial →
      ¬ 3 ∣ multiplicity factor (variablePower 4).toPolynomial) ∧
    ∃ factorization,
      factorUnivariateFiniteField (zeroEngine 3) (variablePower 4) 0 =
        .ok factorization ∧
      factorization.value ≠ (variablePower 4).toPolynomial := by
  rw [toPolynomial_variablePower]
  constructor
  · intro factor isIrreducible divides
    have associated : Associated factor (Polynomial.X : Polynomial (ZMod 3)) :=
      isIrreducible.associated_of_dvd Polynomial.irreducible_X
        (isIrreducible.prime.dvd_of_dvd_pow divides)
    rw [multiplicity_eq_of_associated_left associated.symm,
      multiplicity_pow_self_of_prime Polynomial.prime_X]
    decide
  · obtain ⟨factorization, returned, isValue⟩ := factor_variablePower 4
    refine ⟨factorization, returned, ?_⟩
    rw [isValue]
    intro same
    have degrees := congrArg Polynomial.natDegree same
    simp at degrees

end PolyCore
