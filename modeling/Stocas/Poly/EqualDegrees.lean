import Stocas.Poly.WidePowers

namespace PolyCore

open DegreeParts (FactorsOf)
open GreatestCommonDivisor (IsGcd)
open MultivariatePolynomial
open Outcome (bind_eq_ok ok_bind)
open SquarefreeParts (Separate)
open SymbolTable (Symbol)

/-!
# Splitting into factors of one degree

Whatever is drawn, an attempt either splits a pending polynomial into two proper
factors or is wasted, so the loop ends: with the pieces of the degree asked for, or
because all attempts at one polynomial were wasted.  The splits do not rely on the
power that an attempt computes, so its wrapped exponents do not matter.
-/

variable {prime : ℕ} [Fact prime.Prime] {single : Fin 1 → Symbol}
variable (engine : RandomEngine prime)

/-- What is thrown when all attempts at one polynomial were wasted. -/
def exhaustedAttempts : FactorizationError :=
  .polynomial (.runtimeError
    ("poly_core::equal_degree_split: exhausted kMaxSplitAttempts without " ++
      "finding a splitting polynomial"))

/-- The normalized gcd with a nonzero polynomial is always computed. -/
theorem exists_normalGcd
    {left : MultivariatePolynomial single (ZMod prime)}
    (isNonzero : left.toPolynomial ≠ 0)
    (right : MultivariatePolynomial single (ZMod prime)) :
    ∃ common,
      univariateGcd left right = .ok common ∧ monicNormalize common = .ok common := by
  obtain ⟨common, returns, isGcd, monic⟩ := univariateGcd_isGcd left right
  have commonNonzero : common.toPolynomial ≠ 0 :=
    fun isZero => isNonzero (zero_dvd_iff.mp (isZero ▸ isGcd.dvd_left))
  exact ⟨common, returns, monicNormalize_monic (monic commonNonzero)⟩

/-- An attempt never throws. -/
theorem splitCandidate_returns
    {poly : MultivariatePolynomial single (ZMod prime)}
    (monic : poly.toPolynomial.Monic)
    (exponent : ℤ)
    (r : MultivariatePolynomial single (ZMod prime)) :
    ∃ g, splitCandidate exponent poly r = .ok g := by
  obtain ⟨common, isCommon, normal⟩ := exists_normalGcd monic.ne_zero r
  obtain ⟨power, powmod⟩ := polyPowmod_returns monic r exponent
  obtain ⟨second, isSecond, secondNormal⟩ :=
    exists_normalGcd monic.ne_zero (power - constant 1)
  rw [splitCandidate]
  simp only [isCommon, normal, powmod, isSecond, secondNormal, ok_bind]
  split
  · exact ⟨second, rfl⟩
  · exact ⟨common, rfl⟩

/-- Attempts either find a proper divisor or are exhausted. -/
theorem splitAttempts_outcome
    {poly : MultivariatePolynomial single (ZMod prime)}
    (monic : poly.toPolynomial.Monic)
    (exponent : ℤ)
    (attempts : ℕ)
    (rng : engine.State) :
    (∃ g quotient next,
      splitAttempts engine exponent poly attempts rng = .ok ((g, quotient), next) ∧
      0 < g.toPolynomial.natDegree ∧
      g.toPolynomial.natDegree < poly.toPolynomial.natDegree) ∨
    splitAttempts engine exponent poly attempts rng = .error exhaustedAttempts := by
  induction attempts generalizing rng with
  | zero =>
      exact Or.inr rfl
  | succ attempts inductionHypothesis =>
      rw [splitAttempts]
      rcases drawn : randomPolynomial engine (poly.degreeIn 0) rng with ⟨r, next⟩
      dsimp only
      split
      · exact inductionHypothesis next
      · obtain ⟨g, isCandidate⟩ := splitCandidate_returns monic exponent r
        obtain ⟨gMonic, divides⟩ := splitCandidate_divides monic.ne_zero isCandidate
        obtain ⟨cofactor, product⟩ := divides
        obtain ⟨quotient, remainder, divided, _⟩ := univariateDivRem_mul gMonic product
        simp only [isCandidate, divided, arithmetic, ok_bind]
        split
        · rename_i proper
          rw [degreeIn_eq_natDegree, degreeIn_eq_natDegree] at proper
          exact Or.inl ⟨g, quotient, next, rfl, proper⟩
        · exact inductionHypothesis next

/-- The degrees of the pending polynomials together. -/
noncomputable def pendingDegree
    (pending : List (MultivariatePolynomial single (ZMod prime))) :
    ℕ :=
  (pending.map (fun poly => poly.toPolynomial.natDegree)).sum

/--
The loop ends by itself.  Every round lowers twice the pending degrees minus the number
of pending polynomials.
-/
theorem equalDegreeLoop_outcome
    {d : ℕ}
    (exponent : ℤ)
    {rounds : ℕ}
    {pending result : List (MultivariatePolynomial single (ZMod prime))}
    {rng : engine.State}
    (monic : ∀ poly ∈ pending, poly.toPolynomial.Monic)
    (nonconstant : ∀ poly ∈ pending, 0 < poly.toPolynomial.natDegree)
    (enough : 2 * pendingDegree pending ≤ rounds + pending.length) :
    (∃ last next,
      equalDegreeLoop engine exponent d rounds pending result rng = .ok (last, next)) ∨
    equalDegreeLoop engine exponent d rounds pending result rng =
      .error exhaustedAttempts := by
  induction rounds generalizing pending result rng with
  | zero =>
      cases pending with
      | nil =>
          exact Or.inl ⟨result, rng, rfl⟩
      | cons poly pending =>
          have atLeast :
              (poly :: pending).length ≤ pendingDegree (poly :: pending) := by
            simpa [pendingDegree] using
              List.length_le_sum_of_one_le
                ((poly :: pending).map (fun poly => poly.toPolynomial.natDegree))
                (List.forall_mem_map.mpr nonconstant)
          simp only [List.length_cons] at atLeast enough
          omega
  | succ rounds inductionHypothesis =>
      cases pending with
      | nil =>
          exact Or.inl ⟨result, rng, rfl⟩
      | cons poly pending =>
          obtain ⟨polyMonic, pendingMonic⟩ := List.forall_mem_cons.mp monic
          obtain ⟨polyNonconstant, pendingNonconstant⟩ :=
            List.forall_mem_cons.mp nonconstant
          simp only [pendingDegree, List.map_cons, List.sum_cons, List.length_cons]
            at enough
          rw [equalDegreeLoop]
          split
          · refine inductionHypothesis pendingMonic pendingNonconstant ?_
            rw [pendingDegree]
            omega
          · rcases splitAttempts_outcome engine polyMonic exponent kMaxSplitAttempts rng with
              ⟨g, quotient, next, splits, gPositive, gBelow⟩ | exhausted
            · obtain ⟨gMonic, quotientMonic, product⟩ :=
                splitAttempts_product engine polyMonic splits
              have degrees := Polynomial.natDegree_mul gMonic.ne_zero quotientMonic.ne_zero
              rw [product] at degrees
              rw [splits, ok_bind]
              refine inductionHypothesis
                (List.forall_mem_cons.mpr
                  ⟨quotientMonic, List.forall_mem_cons.mpr ⟨gMonic, pendingMonic⟩⟩)
                (List.forall_mem_cons.mpr
                  ⟨by omega,
                    List.forall_mem_cons.mpr ⟨gPositive, pendingNonconstant⟩⟩) ?_
              simp only [pendingDegree, List.map_cons, List.sum_cons, List.length_cons]
              omega
            · rw [exhausted]
              exact Or.inr rfl

/-- A constant polynomial is never split. -/
theorem equalDegreeLoop_constant
    {d : ℕ}
    (positive : 0 < d)
    (exponent : ℤ)
    {rounds : ℕ}
    {poly : MultivariatePolynomial single (ZMod prime)}
    (monic : poly.toPolynomial.Monic)
    (constant : poly.toPolynomial.natDegree = 0)
    (rng : engine.State) :
    equalDegreeLoop engine exponent d (rounds + 1) [poly] [] rng =
      .error exhaustedAttempts := by
  have otherDegree : ¬ poly.degreeIn 0 = d := by
    rw [degreeIn_eq_natDegree, constant]
    exact positive.ne
  rw [equalDegreeLoop, if_neg otherDegree]
  rcases splitAttempts_outcome engine monic exponent kMaxSplitAttempts rng with
    ⟨_, _, _, _, _, below⟩ | exhausted
  · omega
  · rw [exhausted]
    rfl

/-- `equal_degree_split` returns or exhausts its attempts. -/
theorem equalDegreeSplit_outcome
    (odd : prime ≠ 2)
    {f : MultivariatePolynomial single (ZMod prime)}
    {d : ℕ}
    (positive : 0 < d)
    (monic : f.toPolynomial.Monic)
    (rng : engine.State) :
    (∃ factors next, equalDegreeSplit engine f d rng = .ok (factors, next)) ∨
      equalDegreeSplit engine f d rng = .error exhaustedAttempts := by
  rw [equalDegreeSplit, if_neg odd]
  by_cases constant : f.toPolynomial.natDegree = 0
  · exact Or.inr (equalDegreeLoop_constant engine positive _ monic constant rng)
  · refine equalDegreeLoop_outcome engine _ ?_ ?_ ?_
    · simpa using monic
    · simpa using Nat.pos_of_ne_zero constant
    · simp only [pendingDegree, degreeIn_eq_natDegree, List.map_cons, List.map_nil,
        List.sum_cons, List.sum_nil, List.length_cons, List.length_nil]
      omega

/--
Whatever is drawn, splitting a product of distinct monic irreducible polynomials of one
degree ends: it returns exactly these polynomials, each once, or throws because its
attempts are exhausted.
-/
theorem equalDegreeSplit_factors
    (odd : prime ≠ 2)
    (f : MultivariatePolynomial single (ZMod prime))
    (d : ℕ)
    (positive : 0 < d)
    (factors : Finset (Polynomial (ZMod prime)))
    (irreducible : ∀ factor ∈ factors, Irreducible factor)
    (monic : ∀ factor ∈ factors, factor.Monic)
    (ofDegree : ∀ factor ∈ factors, factor.natDegree = d)
    (isProduct : f.toPolynomial = ∏ factor ∈ factors, factor)
    (rng : engine.State) :
    (∃ split next,
      equalDegreeSplit engine f d rng = .ok (split, next) ∧
      (split.map toPolynomial).Nodup ∧
      ∀ factor, factor ∈ split.map toPolynomial ↔ factor ∈ factors) ∨
    equalDegreeSplit engine f d rng = .error exhaustedAttempts := by
  have separate : Separate factors :=
    { irreducible := irreducible
      monic := monic
      separable := fun factor member =>
        PerfectField.separable_of_irreducible (irreducible factor member) }
  have fMonic : f.toPolynomial.Monic := isProduct ▸ separate.monic_prod
  rcases equalDegreeSplit_outcome engine odd positive fMonic rng with
    ⟨split, next, returned⟩ | exhausted
  · obtain ⟨ofSplit, product⟩ := equalDegreeSplit_spec engine fMonic returned
    refine Or.inl ⟨split, next, returned, ?_⟩
    refine DegreeParts.pieces_of_prod_eq separate positive ofDegree ?_ ?_ ?_
    · exact List.forall_mem_map.mpr (fun factor member => (ofSplit factor member).1)
    · exact List.forall_mem_map.mpr (fun factor member => (ofSplit factor member).2)
    · rw [← isProduct, ← product, productOf]
  · exact Or.inr exhausted

/-- An attempt whose polynomial has a proper common divisor with the given one splits it. -/
theorem splitAttempts_of_common
    (exponent : ℤ)
    (attempts : ℕ)
    {poly r : MultivariatePolynomial single (ZMod prime)}
    {common cofactor : Polynomial (ZMod prime)}
    {rng next : engine.State}
    (drawn : randomPolynomial engine (poly.degreeIn 0) rng = (r, next))
    (isNonzero : r.isZero = false)
    (isGcd : IsGcd poly.toPolynomial r.toPolynomial common)
    (monic : common.Monic)
    (product : poly.toPolynomial = common * cofactor)
    (proper : 0 < common.natDegree ∧ common.natDegree < poly.toPolynomial.natDegree) :
    ∃ g quotient,
      splitAttempts engine exponent poly (attempts + 1) rng = .ok ((g, quotient), next) ∧
        g.toPolynomial = common ∧ quotient.toPolynomial = cofactor := by
  obtain ⟨g, returned, isCommon⟩ := univariateGcd_eq isGcd monic
  have normal : monicNormalize g = .ok g := monicNormalize_monic (isCommon ▸ monic)
  have degree : g.degreeIn 0 = common.natDegree := by
    rw [degreeIn_eq_natDegree, isCommon]
  have candidate : splitCandidate exponent poly r = .ok g := by
    rw [splitCandidate, returned]
    simp [normal, degree, proper.1.ne']
  obtain ⟨quotient, remainder, divides, isQuotient⟩ :=
    univariateDivRem_mul (isCommon ▸ monic) (isCommon.symm ▸ product)
  have isProper : g.degreeIn 0 > 0 ∧ g.degreeIn 0 < poly.degreeIn 0 := by
    rwa [degree, degreeIn_eq_natDegree]
  refine ⟨g, quotient, ?_, isCommon, isQuotient⟩
  rw [splitAttempts, drawn]
  simp [isNonzero, candidate, isProper, divides, arithmetic]

/-- Zero and one are residues modulo a prime. -/
private theorem alternating_lt
    (prime : ℕ)
    [Fact prime.Prime]
    (next : Bool) :
    (if next then 1 else 0) < prime := by
  have atLeastTwo := (Fact.out (p := prime.Prime)).two_le
  split <;> omega

/-- An engine that draws zero and one in turn. -/
def alternatingEngine (prime : ℕ) [Fact prime.Prime] : RandomEngine prime where
  State := Bool
  seeded _ := false
  draw next := (⟨if next then 1 else 0, alternating_lt prime next⟩, !next)

/-- The first draws give the variable itself, which divides `x * (x - 2)`. -/
theorem equalDegreeSplit_alternating :
    ∃ split next,
      equalDegreeSplit (alternatingEngine 3) (twoRoots 3) 1 ((alternatingEngine 3).seeded 0) =
        .ok (split, next) := by
  have odd : 3 ≠ 2 := by decide
  have whole : (twoRoots 3).degreeIn 0 = 2 := by
    rw [degreeIn_eq_natDegree, natDegree_twoRoots]
  have drawn :
      randomPolynomial (alternatingEngine 3) ((twoRoots 3).degreeIn 0)
          ((alternatingEngine 3).seeded 0) =
        ((0 + xPoly 3 : MultivariatePolynomial oneVariable (ZMod 3)),
          (alternatingEngine 3).seeded 0) := by
    rw [whole]
    rfl
  have isX : (0 + xPoly 3 : MultivariatePolynomial oneVariable (ZMod 3)).toPolynomial =
      Polynomial.X := by
    simp [xPoly, Polynomial.X]
  have isNonzero :
      (0 + xPoly 3 : MultivariatePolynomial oneVariable (ZMod 3)).isZero = false := by
    decide +kernel
  have product := @toPolynomial_twoRoots 3 _
  have isGcd :
      IsGcd (twoRoots 3).toPolynomial
        (0 + xPoly 3 : MultivariatePolynomial oneVariable (ZMod 3)).toPolynomial
        Polynomial.X := by
    rw [isX, product]
    exact ⟨dvd_mul_right _ _, dvd_refl _, fun _ _ divides => divides⟩
  have proper :
      0 < (Polynomial.X : Polynomial (ZMod 3)).natDegree ∧
        (Polynomial.X : Polynomial (ZMod 3)).natDegree <
          (twoRoots 3).toPolynomial.natDegree := by
    rw [Polynomial.natDegree_X, natDegree_twoRoots]
    decide
  obtain ⟨g, quotient, splits, isFirst, isSecond⟩ :=
    splitAttempts_of_common (alternatingEngine 3)
      ((bigintPow (primeBig 3) 1 - 1).tdiv 2) 199 drawn isNonzero isGcd Polynomial.monic_X
      product proper
  have firstDegree : g.degreeIn 0 = 1 := by
    rw [degreeIn_eq_natDegree, isFirst, Polynomial.natDegree_X]
  have secondDegree : quotient.degreeIn 0 = 1 := by
    rw [degreeIn_eq_natDegree, isSecond, Polynomial.natDegree_X_sub_C]
  refine ⟨[quotient, g], (alternatingEngine 3).seeded 0, ?_⟩
  rw [equalDegreeSplit, if_neg odd, whole]
  simp only [equalDegreeLoop, whole, OfNat.ofNat_ne_one, if_false, kMaxSplitAttempts]
  rw [splits]
  simp [firstDegree, secondDegree]

/-- Over the field with three elements the two factors of `x * (x - 2)` are found. -/
theorem equalDegreeSplit_factors_twoRoots :
    ∃ split next,
      equalDegreeSplit (alternatingEngine 3) (twoRoots 3) 1 ((alternatingEngine 3).seeded 0) =
        .ok (split, next) ∧
      (split.map toPolynomial).Nodup ∧
      ∀ factor, factor ∈ split.map toPolynomial ↔ factor ∈ twoFactors 3 := by
  have odd : 3 ≠ 2 := by decide
  have linear : ∀ factor ∈ twoFactors 3, factor.natDegree = 1 := by
    simp [twoFactors]
  obtain ⟨found, last, returned⟩ := equalDegreeSplit_alternating
  rcases equalDegreeSplit_factors (alternatingEngine 3) odd (twoRoots 3) 1 Nat.one_pos
      (twoFactors 3) separate_twoFactors.irreducible separate_twoFactors.monic linear
      (prod_twoFactors odd).symm _ with
    splits | exhausted
  · exact splits
  · rw [returned] at exhausted
    cases exhausted

end PolyCore
