import Mathlib.Algebra.CharP.Lemmas
import Mathlib.FieldTheory.Finite.Basic
import Stocas.Library.SquarefreeParts
import Stocas.Poly.Factorization
import Stocas.Poly.Univariate

namespace PolyCore

open GreatestCommonDivisor (IsGcd)
open MultivariatePolynomial
open Outcome (bind_eq_ok ok_bind)
open SquarefreeParts
open SymbolTable (Symbol)

/-!
# What Yun's decomposition returns

The loop keeps the product of the factors that are left and the sum of their
derivatives, weighted by how far their multiplicities are from the current index.
Weights are elements of the field, so multiplicities count modulo its characteristic.
-/

variable {single : Fin 1 → Symbol} {K : Type} [Field K] [DecidableEq K]

omit [DecidableEq K] in
theorem addRepeatedly_eq
    (value : K)
    (count : ℕ) :
    addRepeatedly value count = value * count := by
  induction count with
  | zero =>
      simp [addRepeatedly]
  | succ count inductionHypothesis =>
      rw [addRepeatedly, inductionHypothesis, Nat.cast_succ]
      ring

omit [DecidableEq K] in
/-- A polynomial is the sum of its terms. -/
theorem toPolynomial_eq_sum
    (poly : MultivariatePolynomial single K) :
    poly.toPolynomial =
      (poly.terms.map
        (fun term => Polynomial.monomial (term.1.exponent 0) term.2)).sum := by
  rw [toPolynomial, toMvPolynomial, termsValue, map_list_sum, List.map_map]
  congr 1
  refine List.map_congr_left (fun term _ => ?_)
  exact MvPolynomial.uniqueAlgEquiv_monomial K

/-- `univariate_derivative` is the derivative. -/
@[simp] theorem toPolynomial_univariateDerivative
    (f : MultivariatePolynomial single K) :
    (univariateDerivative f).toPolynomial = Polynomial.derivative f.toPolynomial := by
  have addsDerivatives
      (terms : List (Term 1 K))
      (start : MultivariatePolynomial single K) :
      (terms.foldl
        (fun result term =>
          let exponent := term.1.exponent 0
          if exponent = 0 then
            result
          else
            let scaled := addRepeatedly term.2 exponent
            if scaled = 0 then
              result
            else
              result + fromTerm ⟨fun _ => exponent - 1⟩ scaled)
        start).toPolynomial =
        start.toPolynomial +
          (terms.map (fun term =>
            Polynomial.derivative
              (Polynomial.monomial (term.1.exponent 0) term.2))).sum := by
    induction terms generalizing start with
    | nil =>
        simp
    | cons term rest inductionHypothesis =>
        rw [List.foldl_cons, inductionHypothesis, List.map_cons, List.sum_cons,
          ← add_assoc]
        congr 1
        rw [Polynomial.derivative_monomial, ← addRepeatedly_eq]
        by_cases isConstant : term.1.exponent 0 = 0
        · simp [isConstant, addRepeatedly]
        · by_cases vanishes : addRepeatedly term.2 (term.1.exponent 0) = 0
          · simp [isConstant, vanishes]
          · simp [isConstant, vanishes]
  rw [univariateDerivative, addsDerivatives, toPolynomial_zero, zero_add,
    toPolynomial_eq_sum, map_list_sum, List.map_map]
  rfl

variable [FieldErrors K]

/-- A monic gcd, computed within the factorization. -/
theorem arithmetic_univariateGcd
    {left right : MultivariatePolynomial single K}
    {candidate : Polynomial K}
    (isGcd : IsGcd left.toPolynomial right.toPolynomial candidate)
    (monic : candidate.Monic) :
    ∃ common,
      arithmetic (univariateGcd left right) = .ok common ∧
      common.toPolynomial = candidate := by
  obtain ⟨common, returns, isCommon⟩ := univariateGcd_eq isGcd monic
  exact ⟨common, by rw [returns, arithmetic], isCommon⟩

/-- An exact division, computed within the factorization. -/
theorem arithmetic_univariateDivRem
    {dividend divisor : MultivariatePolynomial single K}
    {cofactor : Polynomial K}
    (monic : divisor.toPolynomial.Monic)
    (product : dividend.toPolynomial = divisor.toPolynomial * cofactor) :
    ∃ quotient remainder,
      arithmetic (univariateDivRem dividend divisor) = .ok (quotient, remainder) ∧
      quotient.toPolynomial = cofactor := by
  obtain ⟨quotient, remainder, returns, isQuotient⟩ := univariateDivRem_mul monic product
  exact ⟨quotient, remainder, by rw [returns, arithmetic], isQuotient⟩

/-- A round splits off the part of its index, and keeps the weights for the next. -/
theorem exists_round
    (multiplicity : Polynomial K → ℕ)
    (i : ℕ)
    (b d : MultivariatePolynomial single K)
    {factors : Finset (Polynomial K)}
    (separate : Separate factors)
    (bFactors : b.toPolynomial = ∏ factor ∈ factors, factor)
    (dWeighted :
      d.toPolynomial = weighted factors (fun factor => (multiplicity factor : K) - i)) :
    ∃ aI nextB bRemainder c dRemainder,
      arithmetic (univariateGcd b d) = .ok aI ∧
      arithmetic (univariateDivRem b aI) = .ok (nextB, bRemainder) ∧
      arithmetic (univariateDivRem d aI) = .ok (c, dRemainder) ∧
      aI.toPolynomial = part factors multiplicity i ∧
      nextB.toPolynomial = ∏ factor ∈ without multiplicity factors i, factor ∧
      (c - univariateDerivative nextB).toPolynomial =
        weighted (without multiplicity factors i)
          (fun factor => (multiplicity factor : K) - (i + 1 : ℕ)) := by
  have isGcd :
      IsGcd b.toPolynomial d.toPolynomial (part factors multiplicity i) := by
    rw [bFactors, dWeighted]
    exact separate.isGcd_part multiplicity i
  have partMonic := separate.monic_part multiplicity i
  obtain ⟨aI, aReturns, aPart⟩ := arithmetic_univariateGcd isGcd partMonic
  obtain ⟨nextB, bRemainder, bReturns, nextFactors⟩ :=
    arithmetic_univariateDivRem (aPart ▸ partMonic)
      (show b.toPolynomial = aI.toPolynomial * _ by
        rw [bFactors, aPart]
        exact prod_eq_part_mul multiplicity i)
  obtain ⟨c, dRemainder, cReturns, cWeighted⟩ :=
    arithmetic_univariateDivRem (aPart ▸ partMonic)
      (show d.toPolynomial = aI.toPolynomial * _ by
        rw [dWeighted, aPart]
        exact weighted_eq_part_mul multiplicity i)
  refine ⟨aI, nextB, bRemainder, c, dRemainder, aReturns, bReturns, cReturns, aPart,
    nextFactors, ?_⟩
  rw [toPolynomial_sub, toPolynomial_univariateDerivative, cWeighted, nextFactors,
    derivative_prod_factors, weighted_sub]
  congr 1
  funext factor
  simp only [Pi.sub_apply, Pi.one_apply, Nat.cast_succ]
  ring

omit [DecidableEq K] [FieldErrors K] in
/-- Factors without the current index have one of the indices after it. -/
theorem reached_without
    {multiplicity : Polynomial K → ℕ}
    {rounds i : ℕ}
    {factors : Finset (Polynomial K)}
    (reached :
      ∀ factor ∈ factors, ∃ index, i ≤ index ∧ index < i + (rounds + 1) ∧
        (multiplicity factor : K) = index) :
    ∀ factor ∈ without multiplicity factors i, ∃ index, i + 1 ≤ index ∧
      index < i + 1 + rounds ∧ (multiplicity factor : K) = index := by
  intro factor member
  obtain ⟨inFactors, differs⟩ := (mem_without multiplicity).mp member
  obtain ⟨index, atLeast, below, same⟩ := reached factor inFactors
  refine ⟨index, ?_, by omega, same⟩
  refine Nat.succ_le_of_lt (lt_of_le_of_ne atLeast ?_)
  rintro rfl
  exact differs same

/-- The loop returns the parts with the indices that are left. -/
theorem squarefreeLoop_spec
    (multiplicity : Polynomial K → ℕ)
    (rounds i : ℕ)
    (b d : MultivariatePolynomial single K)
    {factors : Finset (Polynomial K)}
    (separate : Separate factors)
    (bFactors : b.toPolynomial = ∏ factor ∈ factors, factor)
    (dWeighted :
      d.toPolynomial = weighted factors (fun factor => (multiplicity factor : K) - i))
    (reached :
      ∀ factor ∈ factors, ∃ index, i ≤ index ∧ index < i + rounds ∧
        (multiplicity factor : K) = index)
    (distinct :
      ∀ index later, i ≤ index → index < later → later < i + rounds →
        (index : K) ≠ later) :
    ∃ parts,
      squarefreeLoop rounds i b d = .ok parts ∧
      parts.map (Prod.map toPolynomial id) = partsFrom factors multiplicity i rounds := by
  induction rounds generalizing i b d factors with
  | zero =>
      have noFactors : factors = ∅ := by
        rw [Finset.eq_empty_iff_forall_notMem]
        intro factor member
        obtain ⟨index, atLeast, below, _⟩ := reached factor member
        omega
      have constant : ¬ b.degreeIn 0 > 0 := by
        rw [degreeIn_eq_natDegree, bFactors, noFactors]
        simp
      exact ⟨[], by rw [squarefreeLoop, if_neg constant], by simp [partsFrom]⟩
  | succ rounds inductionHypothesis =>
      by_cases positive : b.degreeIn 0 > 0
      · obtain ⟨aI, nextB, _, c, _, aReturns, bReturns, cReturns, aPart, nextFactors,
          nextWeighted⟩ := exists_round multiplicity i b d separate bFactors dWeighted
        obtain ⟨rest, restReturns, restParts⟩ :=
          inductionHypothesis (i + 1) nextB (c - univariateDerivative nextB)
            (separate.mono (without_subset multiplicity i)) nextFactors nextWeighted
            (reached_without reached)
            (fun index later atLeast less below =>
              distinct index later (by omega) less (by omega))
        rw [partsFrom_without multiplicity
          (fun other atLeast below => (distinct i other le_rfl (by omega) (by omega)).symm)]
          at restParts
        rw [squarefreeLoop, if_pos positive, partsFrom_succ]
        simp only [aReturns, bReturns, cReturns, restReturns, ok_bind]
        by_cases nonconstant : aI.degreeIn 0 > 0
        · refine ⟨(aI, i) :: rest, by rw [if_pos nonconstant], ?_⟩
          rw [degreeIn_eq_natDegree, aPart] at nonconstant
          rw [if_pos nonconstant, List.map_cons, restParts, Prod.map_apply, aPart]
          rfl
        · refine ⟨rest, by rw [if_neg nonconstant], ?_⟩
          rw [degreeIn_eq_natDegree, aPart] at nonconstant
          rw [if_neg nonconstant, restParts]
      · have constant : b.toPolynomial.natDegree = 0 := by
          rw [← degreeIn_eq_natDegree]
          omega
        have noFactors := separate.eq_empty_of_natDegree (bFactors ▸ constant)
        refine ⟨[], by rw [squarefreeLoop, if_neg positive], ?_⟩
        rw [noFactors, partsFrom_empty, List.map_nil]

/--
In characteristic `prime` the decomposition returns after as many rounds as the
largest multiplicity modulo `prime`.
-/
theorem squarefreeDecomposition_within
    (prime : ℕ)
    [Fact prime.Prime]
    [CharP K prime]
    (multiplicity : Polynomial K → ℕ)
    {factors : Finset (Polynomial K)}
    (separate : Separate factors)
    (fMonic : MultivariatePolynomial single K)
    (fFactors :
      fMonic.toPolynomial = ∏ factor ∈ factors, factor ^ multiplicity factor)
    {rounds : ℕ}
    (fewRounds : rounds ≤ prime)
    (enough : ∀ factor ∈ factors, multiplicity factor % prime ≤ rounds) :
    ∃ parts,
      squarefreeDecomposition rounds fMonic = .ok parts ∧
      parts.map (Prod.map toPolynomial id) =
        partsFrom (visible factors multiplicity) multiplicity 1 rounds := by
  have derivativeFactors :
      (univariateDerivative fMonic).toPolynomial =
        cofactor factors multiplicity *
          weighted (visible factors multiplicity)
            (fun factor => (multiplicity factor : K)) := by
    rw [toPolynomial_univariateDerivative, fFactors, derivative_prod_pow]
  have isGcd :
      IsGcd fMonic.toPolynomial (univariateDerivative fMonic).toPolynomial
        (cofactor factors multiplicity) := by
    rw [toPolynomial_univariateDerivative, fFactors]
    exact separate.isGcd_derivative multiplicity
  have cofactorMonic := separate.monic_cofactor multiplicity
  obtain ⟨a0, aReturns, aCofactor⟩ := arithmetic_univariateGcd isGcd cofactorMonic
  obtain ⟨b, _, bReturns, bFactors⟩ :=
    arithmetic_univariateDivRem (aCofactor ▸ cofactorMonic)
      (show fMonic.toPolynomial = a0.toPolynomial * _ by
        rw [fFactors, aCofactor]
        exact prod_pow_eq factors multiplicity)
  obtain ⟨c, _, cReturns, cWeighted⟩ :=
    arithmetic_univariateDivRem (aCofactor ▸ cofactorMonic)
      (show (univariateDerivative fMonic).toPolynomial = a0.toPolynomial * _ by
        rw [aCofactor]
        exact derivativeFactors)
  have dWeighted :
      (c - univariateDerivative b).toPolynomial =
        weighted (visible factors multiplicity)
          (fun factor => (multiplicity factor : K) - (1 : ℕ)) := by
    rw [toPolynomial_sub, toPolynomial_univariateDerivative, cWeighted, bFactors,
      derivative_prod_factors, weighted_sub]
    congr 1
    funext factor
    simp
  have reached :
      ∀ factor ∈ visible factors multiplicity, ∃ index, 1 ≤ index ∧
        index < 1 + rounds ∧ (multiplicity factor : K) = index := by
    intro factor member
    obtain ⟨inFactors, isVisible⟩ := (mem_visible factors multiplicity).mp member
    have residue := CharP.cast_eq_mod K prime (multiplicity factor)
    have atMost := enough factor inFactors
    refine ⟨multiplicity factor % prime, ?_, by omega, residue⟩
    refine Nat.pos_of_ne_zero (fun isZero => isVisible ?_)
    rw [residue, isZero, Nat.cast_zero]
  obtain ⟨parts, returns, areParts⟩ :=
    squarefreeLoop_spec multiplicity rounds 1 b (c - univariateDerivative b)
      (separate.mono (visible_subset factors multiplicity)) bFactors dWeighted reached
      (fun _ _ atLeast less below => natCast_ne_of_lt prime less (by omega))
  refine ⟨parts, ?_, areParts⟩
  rw [squarefreeDecomposition]
  simp only [aReturns, bReturns, cReturns, returns, ok_bind]

/-- In characteristic `prime` the decomposition returns after at most `prime` rounds. -/
theorem squarefreeDecomposition_spec
    (prime : ℕ)
    [Fact prime.Prime]
    [CharP K prime]
    (multiplicity : Polynomial K → ℕ)
    {factors : Finset (Polynomial K)}
    (separate : Separate factors)
    (fMonic : MultivariatePolynomial single K)
    (fFactors :
      fMonic.toPolynomial = ∏ factor ∈ factors, factor ^ multiplicity factor) :
    ∃ parts,
      squarefreeDecomposition prime fMonic = .ok parts ∧
      parts.map (Prod.map toPolynomial id) =
        partsFrom (visible factors multiplicity) multiplicity 1 prime :=
  squarefreeDecomposition_within prime multiplicity separate fMonic fFactors le_rfl
    (fun _ _ => (Nat.mod_lt _ (Fact.out (p := prime.Prime)).pos).le)

/-- A constant ends the loop. -/
theorem squarefreeLoop_constant
    {rounds i : ℕ}
    {b d : MultivariatePolynomial single K}
    (constant : ¬ b.degreeIn 0 > 0) :
    squarefreeLoop rounds i b d = .ok [] := by
  cases rounds with
  | zero =>
      rw [squarefreeLoop, if_neg constant]
  | succ rounds =>
      rw [squarefreeLoop, if_neg constant]

/-- A loop that returned does so for any larger bound on its rounds. -/
theorem squarefreeLoop_mono
    {rounds more i : ℕ}
    {b d : MultivariatePolynomial single K}
    {parts : List (MultivariatePolynomial single K × ℕ)}
    (atLeast : rounds ≤ more)
    (returned : squarefreeLoop rounds i b d = .ok parts) :
    squarefreeLoop more i b d = .ok parts := by
  induction rounds generalizing more i b d parts with
  | zero =>
      by_cases positive : b.degreeIn 0 > 0
      · rw [squarefreeLoop, if_pos positive] at returned
        cases returned
      · rw [squarefreeLoop_constant positive] at returned ⊢
        exact returned
  | succ rounds inductionHypothesis =>
      obtain ⟨more, rfl⟩ : ∃ fewer, more = fewer + 1 := ⟨more - 1, by omega⟩
      rw [squarefreeLoop] at returned ⊢
      split at returned
      · rename_i positive
        obtain ⟨aI, isGcd, afterGcd⟩ := bind_eq_ok.mp returned
        obtain ⟨⟨nextB, _⟩, dividesB, afterB⟩ := bind_eq_ok.mp afterGcd
        obtain ⟨⟨c, _⟩, dividesD, afterD⟩ := bind_eq_ok.mp afterB
        obtain ⟨rest, loops, finished⟩ := bind_eq_ok.mp afterD
        have continues := inductionHypothesis (Nat.le_of_succ_le_succ atLeast) loops
        rw [if_pos positive]
        simp only [isGcd, dividesB, dividesD, continues, ok_bind]
        exact finished
      · rename_i constant
        rw [if_neg constant, returned]

theorem squarefreeDecomposition_mono
    {rounds more : ℕ}
    {fMonic : MultivariatePolynomial single K}
    {parts : List (MultivariatePolynomial single K × ℕ)}
    (atLeast : rounds ≤ more)
    (returned : squarefreeDecomposition rounds fMonic = .ok parts) :
    squarefreeDecomposition more fMonic = .ok parts := by
  obtain ⟨a0, isGcd, afterGcd⟩ := bind_eq_ok.mp returned
  obtain ⟨⟨b, _⟩, dividesF, afterB⟩ := bind_eq_ok.mp afterGcd
  obtain ⟨⟨c, _⟩, dividesPrime, loops⟩ := bind_eq_ok.mp afterB
  have continues := squarefreeLoop_mono atLeast loops
  rw [squarefreeDecomposition]
  simp only [isGcd, dividesF, dividesPrime, ok_bind]
  exact continues

/--
Below the degree `prime`, the decomposition of a monic polynomial ends within as many
rounds as its degree, and returns the squarefree decomposition.
-/
theorem squarefreeDecomposition_isSquarefreeDecomposition
    (prime : ℕ)
    [Fact prime.Prime]
    (f : MultivariatePolynomial single (ZMod prime))
    (monic : f.toPolynomial.Monic)
    (small : f.toPolynomial.natDegree < prime) :
    ∃ parts,
      (∀ rounds, f.toPolynomial.natDegree ≤ rounds →
        squarefreeDecomposition rounds f = .ok parts) ∧
      IsSquarefreeDecomposition f.toPolynomial
        (parts.map (Prod.map toPolynomial id)) := by
  have isNonzero := monic.ne_zero
  have separate := separate_factorsOf isNonzero
  have fFactors :
      ∏ factor ∈ factorsOf f.toPolynomial,
          factor ^ multiplicity factor f.toPolynomial =
        f.toPolynomial := by
    simpa [monic.leadingCoeff] using prod_factorsOf isNonzero
  have atMostDegree :
      ∀ factor ∈ factorsOf f.toPolynomial,
        multiplicity factor f.toPolynomial ≤ f.toPolynomial.natDegree := by
    intro factor member
    have powerDegree :=
      Polynomial.natDegree_le_of_dvd (pow_multiplicity_dvd factor f.toPolynomial) isNonzero
    rw [Polynomial.natDegree_pow] at powerDegree
    exact (Nat.le_mul_of_pos_right _
      (separate.irreducible factor member).natDegree_pos).trans powerDegree
  obtain ⟨parts, returns, areParts⟩ :=
    squarefreeDecomposition_spec prime (multiplicity · f.toPolynomial) separate f
      fFactors.symm
  obtain ⟨early, returnsEarly, _⟩ :=
    squarefreeDecomposition_within prime (multiplicity · f.toPolynomial) separate f
      fFactors.symm small.le
      (fun factor member => (Nat.mod_le _ _).trans (atMostDegree factor member))
  have same : early = parts :=
    Except.ok.inj ((squarefreeDecomposition_mono small.le returnsEarly).symm.trans returns)
  subst same
  refine ⟨early, ?_, ?_⟩
  · intro rounds atLeast
    exact squarefreeDecomposition_mono atLeast returnsEarly
  · have decomposition :=
      separate.isSquarefreeDecomposition (multiplicity · f.toPolynomial) prime
        (fun factor member => (atMostDegree factor member).trans_lt small)
    rwa [fFactors, ← areParts] at decomposition

/-- Over the field with three elements the square of the variable is decomposed. -/
theorem squarefreeDecomposition_isSquarefreeDecomposition_square :
    ∃ parts,
      (∀ rounds, 2 ≤ rounds →
        squarefreeDecomposition rounds
            (fromTerm ⟨fun _ => 2⟩ 1 : MultivariatePolynomial oneVariable (ZMod 3)) =
          .ok parts) ∧
      IsSquarefreeDecomposition (Polynomial.X ^ 2)
        (parts.map (Prod.map toPolynomial id)) := by
  have isSquare :
      (fromTerm ⟨fun _ => 2⟩ 1 :
        MultivariatePolynomial oneVariable (ZMod 3)).toPolynomial =
          Polynomial.X ^ 2 := by
    rw [toPolynomial_fromTerm, ← Polynomial.X_pow_eq_monomial]
  have decomposes :=
    squarefreeDecomposition_isSquarefreeDecomposition 3
      (fromTerm ⟨fun _ => 2⟩ 1 : MultivariatePolynomial oneVariable (ZMod 3))
      (isSquare ▸ Polynomial.monic_X_pow 2)
      (by rw [isSquare, Polynomial.natDegree_X_pow]; decide)
  rwa [isSquare, Polynomial.natDegree_X_pow] at decomposes

end PolyCore
