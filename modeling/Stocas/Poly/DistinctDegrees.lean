import Stocas.Poly.WidePowers

namespace PolyCore

open DegreeParts
open GreatestCommonDivisor (IsGcd)
open MultivariatePolynomial
open Outcome (bind_eq_ok ok_bind)
open SquarefreeParts
open SymbolTable (Symbol)

/-!
# When splitting by degrees is correct

A round takes the factors that divide `x^e - x` out of what is left.  The exponent `e`
is the power of the prime as long as what is left has degree at most `2^31`, and that
power modulo `2^32` before.  The loop always ends: when `d` reaches `2^30`, the second
exponent is one, and everything that is left is taken out.
-/

variable {prime : ℕ} [Fact prime.Prime] {single : Fin 1 → Symbol}

/-- The exponent of `x` that a round computes with. -/
def computedExponent (prime d degree : ℕ) : ℕ :=
  if degree ≤ 2 ^ 31 then
    prime ^ d
  else
    prime ^ d % exponentModulus

/-- The polynomial `x^e - x` whose divisors a round takes out. -/
noncomputable def computedPower
    (prime : ℕ)
    [Fact prime.Prime]
    (d degree : ℕ) :
    Polynomial (ZMod prime) :=
  Polynomial.X ^ computedExponent prime d degree - Polynomial.X

/-- The power of a round is the one with the computed exponent. -/
theorem frobenius_computed
    (small : prime < 2 ^ 63)
    {d : ℕ}
    {remaining frobenius : MultivariatePolynomial single (ZMod prime)}
    (monic : remaining.toPolynomial.Monic)
    (nonconstant : 0 < remaining.toPolynomial.natDegree)
    (fits : remaining.toPolynomial.natDegree < exponentModulus)
    (powmod :
      polyPowmod (xPoly prime) (bigintPow (primeBig prime) d) remaining =
        .ok frobenius) :
    remaining.toPolynomial ∣
      frobenius.toPolynomial -
        Polynomial.X ^ computedExponent prime d remaining.toPolynomial.natDegree := by
  unfold computedExponent
  split
  · rename_i narrow
    have congruent := frobenius_congr small monic nonconstant narrow powmod
    rwa [Nat.card_zmod] at congruent
  · rename_i wide
    have isX :
        (xPoly prime : MultivariatePolynomial single (ZMod prime)).toPolynomial =
          Polynomial.X := by
      simp [xPoly, Polynomial.X]
    have exponent : (bigintPow (primeBig prime) d).toNat = prime ^ d := by
      rw [bigintPow, coeffPow_eq, primeBig_eq small, ← Nat.cast_pow, Int.toNat_natCast]
    have congruent := polyPowmod_wide monic fits (not_le.mp wide) isX powmod
    rwa [exponent] at congruent

/-- The state of the loop: distinct factors are left, and nothing has been wrapped. -/
structure LoopState
    (factors : Finset (Polynomial (ZMod prime)))
    (d : ℕ)
    (remaining : MultivariatePolynomial single (ZMod prime)) :
    Prop where
  separate : Separate factors
  isProduct : remaining.toPolynomial = ∏ factor ∈ factors, factor
  fits : remaining.toPolynomial.natDegree < exponentModulus
  positive : 0 < d
  bounded : d ≤ 2 ^ 30 + 1
  wideBounded : 2 ^ 31 < remaining.toPolynomial.natDegree → d ≤ 2 ^ 30

/-- The condition of the loop, without the wrapping of `2U * d`. -/
theorem LoopState.doubled
    {factors : Finset (Polynomial (ZMod prime))}
    {d : ℕ}
    {remaining : MultivariatePolynomial single (ZMod prime)}
    (state : LoopState factors d remaining) :
    2 * d % exponentModulus = 2 * d := by
  have bounded := state.bounded
  exact doubled_eq (by omega)

theorem LoopState.monic
    {factors : Finset (Polynomial (ZMod prime))}
    {d : ℕ}
    {remaining : MultivariatePolynomial single (ZMod prime)}
    (state : LoopState factors d remaining) :
    remaining.toPolynomial.Monic :=
  state.isProduct ▸ state.separate.monic_prod

open scoped Classical in
/-- A round takes out the factors that divide `x^e - x`. -/
theorem LoopState.round
    (small : prime < 2 ^ 63)
    {factors : Finset (Polynomial (ZMod prime))}
    {d : ℕ}
    {remaining next frobenius g : MultivariatePolynomial single (ZMod prime)}
    {rest groups : List (ℕ × MultivariatePolynomial single (ZMod prime))}
    (state : LoopState factors d remaining)
    (nonconstant : 0 < remaining.toPolynomial.natDegree)
    (round : DegreeRound d remaining next frobenius g rest groups) :
    g.toPolynomial =
        ∏ factor ∈ factors with
          factor ∣ computedPower prime d remaining.toPolynomial.natDegree, factor ∧
      next.toPolynomial =
        ∏ factor ∈ factors with
          ¬ factor ∣ computedPower prime d remaining.toPolynomial.natDegree, factor := by
  have congruent :=
    frobenius_computed small state.monic nonconstant state.fits round.powmod
  have isGcd :
      IsGcd remaining.toPolynomial
        (computedPower prime d remaining.toPolynomial.natDegree) g.toPolynomial := by
    refine isGcd_congr ?_ round.isGcd
    simpa [computedPower] using congruent
  have isFiltered :=
    state.separate.isGcd_filter_dvd
      (computedPower prime d remaining.toPolynomial.natDegree)
  rw [← state.isProduct] at isFiltered
  have taken :
      g.toPolynomial =
        ∏ factor ∈ factors with
          factor ∣ computedPower prime d remaining.toPolynomial.natDegree, factor := by
    refine Polynomial.eq_of_monic_of_associated round.monic
      (state.separate.mono (Finset.filter_subset _ factors)).monic_prod ?_
    exact associated_of_dvd_dvd
      (isFiltered.greatest _ isGcd.dvd_left isGcd.dvd_right)
      (isGcd.greatest _ isFiltered.dvd_left isFiltered.dvd_right)
  refine ⟨taken, mul_left_cancel₀ round.monic.ne_zero ?_⟩
  rw [round.product, taken, state.isProduct]
  exact (Finset.prod_filter_mul_prod_filter_not factors _ _).symm

/-- Squaring adds a factor two to the difference from one. -/
theorem two_pow_dvd_pow_sub_one
    {value : ℤ}
    (odd : Odd value)
    (count : ℕ) :
    (2 : ℤ) ^ (count + 3) ∣ value ^ 2 ^ (count + 1) - 1 := by
  induction count with
  | zero =>
      exact Int.eight_dvd_sq_sub_one_of_odd odd
  | succ count inductionHypothesis =>
      have factored :
          value ^ 2 ^ (count + 1 + 1) - 1 =
            (value ^ 2 ^ (count + 1) - 1) * (value ^ 2 ^ (count + 1) + 1) := by
        ring
      have even : (2 : ℤ) ∣ value ^ 2 ^ (count + 1) + 1 :=
        (odd.pow.add_odd odd_one).two_dvd
      rw [factored, show count + 1 + 3 = count + 3 + 1 by omega, pow_succ]
      exact mul_dvd_mul inductionHypothesis even

/-- At `d = 2^30` the wrapped power of an odd prime is one. -/
theorem computedExponent_last
    (odd : prime ≠ 2)
    {degree : ℕ}
    (wide : 2 ^ 31 < degree) :
    computedExponent prime (2 ^ 30) degree = 1 := by
  have oddPrime : Odd (prime : ℤ) :=
    (Int.odd_coe_nat prime).mpr ((Fact.out (p := prime.Prime)).odd_of_ne_two odd)
  have divides := two_pow_dvd_pow_sub_one oddPrime 29
  have congruent : 1 ≡ prime ^ 2 ^ 30 [MOD exponentModulus] := by
    refine (Nat.modEq_iff_dvd).mpr ?_
    unfold exponentModulus
    push_cast
    exact divides
  rw [computedExponent, if_neg (not_le.mpr wide)]
  exact congruent.symm

/-- What a round leaves is again a state of the loop. -/
theorem LoopState.next
    (odd : prime ≠ 2)
    {factors left : Finset (Polynomial (ZMod prime))}
    {d : ℕ}
    {remaining next : MultivariatePolynomial single (ZMod prime)}
    (state : LoopState factors d remaining)
    (goesOn : 2 * d ≤ remaining.toPolynomial.natDegree)
    (isLeft :
      ∀ factor, factor ∈ left ↔ factor ∈ factors ∧
        ¬ factor ∣ computedPower prime d remaining.toPolynomial.natDegree)
    (nextProduct : next.toPolynomial = ∏ factor ∈ left, factor) :
    LoopState left (d + 1) next := by
  have subset : left ⊆ factors := fun factor member => ((isLeft factor).mp member).1
  have divides : next.toPolynomial ∣ remaining.toPolynomial := by
    rw [nextProduct, state.isProduct]
    exact Finset.prod_dvd_prod_of_subset _ _ _ subset
  have atMost := Polynomial.natDegree_le_of_dvd divides state.monic.ne_zero
  have bounded : d ≤ 2 ^ 30 := by
    by_cases wide : 2 ^ 31 < remaining.toPolynomial.natDegree
    · exact state.wideBounded wide
    · omega
  refine ⟨state.separate.mono subset, nextProduct, atMost.trans_lt state.fits,
    Nat.succ_pos d, Nat.succ_le_succ bounded, ?_⟩
  intro nextWide
  have wide := nextWide.trans_le atMost
  refine Nat.succ_le_of_lt (lt_of_le_of_ne bounded ?_)
  rintro rfl
  -- Everything divides zero, so nothing is left after the last exponent.
  have isEmpty : left = ∅ := by
    rw [Finset.eq_empty_iff_forall_notMem]
    intro factor member
    refine ((isLeft factor).mp member).2 ?_
    rw [computedPower, computedExponent_last odd wide, pow_one, sub_self]
    exact dvd_zero factor
  rw [nextProduct, isEmpty, Finset.prod_empty, Polynomial.natDegree_one] at nextWide
  omega

/-- A round is always made, and the loop goes on with what it leaves. -/
theorem distinctDegreeLoop_round
    {d : ℕ}
    {remaining : MultivariatePolynomial single (ZMod prime)}
    (monic : remaining.toPolynomial.Monic)
    (goesOn : 2 * d % exponentModulus ≤ remaining.toPolynomial.natDegree) :
    ∃ next frobenius g, ∀ rest, ∃ groups,
      DegreeRound d remaining next frobenius g rest groups ∧
      ∀ rounds,
        distinctDegreeLoop prime rounds ((d + 1) % exponentModulus) next = .ok rest →
        distinctDegreeLoop prime (rounds + 1) d remaining = .ok groups := by
  obtain ⟨frobenius, powmod⟩ :=
    polyPowmod_returns monic (xPoly prime) (bigintPow (primeBig prime) d)
  obtain ⟨g, isCommon, isGcd, gMonic⟩ :=
    univariateGcd_isGcd remaining (frobenius - xPoly prime)
  have gNonzero : g.toPolynomial ≠ 0 :=
    fun isZero => monic.ne_zero (zero_dvd_iff.mp (isZero ▸ isGcd.dvd_left))
  have isMonic := gMonic gNonzero
  have normal := monicNormalize_monic isMonic
  obtain ⟨cofactor, product⟩ := isGcd.dvd_left
  obtain ⟨quotient, remainder, divided, isCofactor⟩ := univariateDivRem_mul isMonic product
  obtain ⟨quotientMonic, quotientProduct⟩ :=
    univariateDivRem_divisor monic isMonic isGcd.dvd_left divided
  have isGcdX :
      IsGcd remaining.toPolynomial (frobenius.toPolynomial - Polynomial.X)
        g.toPolynomial := by
    simpa [xPoly, Polynomial.X] using isGcd
  by_cases nonconstant : g.degreeIn 0 > 0
  · refine ⟨quotient, frobenius, g, fun rest => ⟨(d, g) :: rest, ?_, ?_⟩⟩
    · rw [degreeIn_eq_natDegree] at nonconstant
      exact ⟨powmod, isGcdX, isMonic, quotientMonic, quotientProduct,
        Or.inl ⟨nonconstant, rfl⟩⟩
    · intro rounds continues
      rw [distinctDegreeLoop, degreeIn_eq_natDegree, if_pos goesOn]
      simp only [powmod, isCommon, normal, divided, arithmetic, ok_bind, if_pos nonconstant,
        continues]
  · refine ⟨remaining, frobenius, g, fun rest => ⟨rest, ?_, ?_⟩⟩
    · rw [degreeIn_eq_natDegree] at nonconstant
      have isOne : g.toPolynomial = 1 :=
        Polynomial.eq_one_of_monic_natDegree_zero isMonic (by omega)
      exact ⟨powmod, isGcdX, isMonic, monic, by rw [isOne, one_mul], Or.inr ⟨isOne, rfl⟩⟩
    · intro rounds continues
      rw [distinctDegreeLoop, degreeIn_eq_natDegree, if_pos goesOn]
      simp only [powmod, isCommon, normal, arithmetic, ok_bind, if_neg nonconstant,
        continues]

/-- The next round of a state, with its number of the degree unwrapped. -/
theorem LoopState.succ_unwrapped
    {factors : Finset (Polynomial (ZMod prime))}
    {d : ℕ}
    {remaining : MultivariatePolynomial single (ZMod prime)}
    (state : LoopState factors d remaining) :
    (d + 1) % exponentModulus = d + 1 := by
  have bounded := state.bounded
  refine Nat.mod_eq_of_lt ?_
  unfold exponentModulus
  omega

/-- The loop returns once its rounds reach `2^30 + 1`. -/
theorem distinctDegreeLoop_returns
    (odd : prime ≠ 2)
    (small : prime < 2 ^ 63)
    {rounds d : ℕ}
    {factors : Finset (Polynomial (ZMod prime))}
    {remaining : MultivariatePolynomial single (ZMod prime)}
    (state : LoopState factors d remaining)
    (enough : 2 ^ 30 + 2 ≤ rounds + d) :
    ∃ groups, distinctDegreeLoop prime rounds d remaining = .ok groups := by
  classical
  induction rounds generalizing d factors remaining with
  | zero =>
      have bounded := state.bounded
      omega
  | succ rounds inductionHypothesis =>
      by_cases goesOn : 2 * d ≤ remaining.toPolynomial.natDegree
      · obtain ⟨next, frobenius, g, round⟩ :=
          distinctDegreeLoop_round state.monic (state.doubled.symm ▸ goesOn)
        obtain ⟨_, degreeRound, _⟩ := round []
        have positive := state.positive
        obtain ⟨_, nextProduct⟩ := state.round small (by omega) degreeRound
        have nextState :=
          state.next odd goesOn (fun factor => Finset.mem_filter) nextProduct
        obtain ⟨rest, continues⟩ := inductionHypothesis nextState (by omega)
        obtain ⟨groups, _, loops⟩ := round rest
        exact ⟨groups, loops rounds (state.succ_unwrapped.symm ▸ continues)⟩
      · rw [distinctDegreeLoop, degreeIn_eq_natDegree, state.doubled, if_neg goesOn]
        split
        · exact ⟨_, rfl⟩
        · exact ⟨_, rfl⟩

open scoped Classical in
/--
Wherever the factors of at least some degree have together a degree above `2^31`, the
wrapped power of the prime tells those of that degree from the others.
-/
def PowersSurvive
    (factors : Finset (Polynomial (ZMod prime)))
    (d : ℕ) :
    Prop :=
  ∀ degree, d ≤ degree →
    2 ^ 31 < ∑ factor ∈ factors with degree ≤ factor.natDegree, factor.natDegree →
    ∀ factor ∈ factors, degree ≤ factor.natDegree →
      (factor ∣ Polynomial.X ^ (prime ^ degree % exponentModulus) - Polynomial.X ↔
        factor.natDegree = degree)

section Survival

variable {factors : Finset (Polynomial (ZMod prime))} {d : ℕ}

/-- Together the factors have the degree of their product. -/
theorem sum_natDegree
    (separate : Separate factors) :
    ∑ factor ∈ factors, factor.natDegree = (∏ factor ∈ factors, factor).natDegree :=
  (Polynomial.natDegree_prod_of_monic _ _ separate.monic).symm

/-- Up to degree `2^31` every power survives. -/
theorem powersSurvive_of_narrow
    (separate : Separate factors)
    (narrow : (∏ factor ∈ factors, factor).natDegree ≤ 2 ^ 31) :
    PowersSurvive factors d := by
  classical
  intro degree _ wide
  have fewer :
      ∑ factor ∈ factors with degree ≤ factor.natDegree, factor.natDegree ≤
        ∑ factor ∈ factors, factor.natDegree :=
    Finset.sum_le_sum_of_subset (Finset.filter_subset _ factors)
  rw [sum_natDegree separate] at fewer
  omega

open scoped Classical in
/-- Above that degree the first power must survive, and then the later ones. -/
theorem powersSurvive_wide
    (separate : Separate factors)
    (lowest : ∀ factor ∈ factors, d ≤ factor.natDegree)
    (wide : 2 ^ 31 < (∏ factor ∈ factors, factor).natDegree) :
    PowersSurvive factors d ↔
      (∀ factor ∈ factors,
        factor ∣ Polynomial.X ^ (prime ^ d % exponentModulus) - Polynomial.X ↔
          factor.natDegree = d) ∧
      PowersSurvive (factors.filter (fun factor => ¬ factor.natDegree = d)) (d + 1) := by
  have sameFactors
      {degree : ℕ}
      (later : d + 1 ≤ degree) :
      (factors.filter (fun factor => ¬ factor.natDegree = d)).filter
          (fun factor => degree ≤ factor.natDegree) =
        factors.filter (fun factor => degree ≤ factor.natDegree) := by
    rw [Finset.filter_filter]
    refine Finset.filter_congr (fun factor _ => ?_)
    constructor
    · exact And.right
    · intro atLeast
      exact ⟨by omega, atLeast⟩
  constructor
  · intro survive
    refine ⟨?_, ?_⟩
    · intro factor member
      refine survive d le_rfl ?_ factor member (lowest factor member)
      rwa [Finset.filter_true_of_mem lowest, sum_natDegree separate]
    · intro degree later stillWide factor member atLeast
      rw [sameFactors later] at stillWide
      exact survive degree (by omega) stillWide factor (Finset.mem_filter.mp member).1
        atLeast
  · rintro ⟨first, survive⟩ degree atLeastD stillWide factor member atLeast
    rcases Nat.eq_or_lt_of_le atLeastD with rfl | later
    · exact first factor member
    · refine survive degree later ?_ factor ?_ atLeast
      · rw [sameFactors later]
        exact stillWide
      · exact Finset.mem_filter.mpr ⟨member, by omega⟩

end Survival

/-- The groups of the model as the entries of a split. -/
noncomputable def entriesOf
    (groups : List (ℕ × MultivariatePolynomial single (ZMod prime))) :
    List (ℕ × Polynomial (ZMod prime)) :=
  groups.map (Prod.map id toPolynomial)

open scoped Classical in
/-- A round that takes out exactly the lowest factors leaves the split of the others. -/
theorem DegreeRound.split_iff
    {d : ℕ}
    {factors : Finset (Polynomial (ZMod prime))}
    {remaining next frobenius g : MultivariatePolynomial single (ZMod prime)}
    {rest groups : List (ℕ × MultivariatePolynomial single (ZMod prime))}
    (round : DegreeRound d remaining next frobenius g rest groups)
    (separate : Separate factors)
    (lowest : ∀ factor ∈ factors, d ≤ factor.natDegree)
    (taken : g.toPolynomial = ∏ factor ∈ factors with factor.natDegree = d, factor) :
    IsDegreeSplit factors (entriesOf groups) ↔
      IsDegreeSplit (factors.filter (fun factor => ¬ factor.natDegree = d))
        (entriesOf rest) := by
  rcases round.listed with ⟨nonconstant, rfl⟩ | ⟨isOne, rfl⟩
  · exact IsDegreeSplit.cons_iff lowest taken nonconstant
  · have noneTaken : factors.filter (fun factor => factor.natDegree = d) = ∅ := by
      refine (separate.mono (Finset.filter_subset _ factors)).eq_empty_of_natDegree ?_
      rw [← taken, isOne, Polynomial.natDegree_one]
    have allLeft : factors.filter (fun factor => ¬ factor.natDegree = d) = factors := by
      refine Finset.filter_true_of_mem (fun factor member same => ?_)
      have inNone : factor ∈ factors.filter (fun factor => factor.natDegree = d) :=
        Finset.mem_filter.mpr ⟨member, same⟩
      rw [noneTaken] at inNone
      exact Finset.notMem_empty factor inNone
    rw [allLeft]

open scoped Classical in
/-- A narrow round takes out exactly the lowest factors. -/
theorem filter_computedPower_narrow
    {d : ℕ}
    {factors : Finset (Polynomial (ZMod prime))}
    (separate : Separate factors)
    (positive : 0 < d)
    (lowest : ∀ factor ∈ factors, d ≤ factor.natDegree)
    {degree : ℕ}
    (narrow : degree ≤ 2 ^ 31) :
    ∀ factor ∈ factors,
      factor ∣ computedPower prime d degree ↔ factor.natDegree = d := by
  intro factor member
  rw [computedPower, computedExponent, if_pos narrow,
    ← dvd_X_pow_card_pow_sub_X_iff separate positive lowest member, Nat.card_zmod]

/-- What the end of the loop lists is a split. -/
theorem LoopState.split_last
    {factors : Finset (Polynomial (ZMod prime))}
    {d : ℕ}
    {remaining : MultivariatePolynomial single (ZMod prime)}
    (state : LoopState factors d remaining)
    (lowest : ∀ factor ∈ factors, d ≤ factor.natDegree)
    (below : remaining.toPolynomial.natDegree < 2 * d)
    (nonconstant : 0 < remaining.toPolynomial.natDegree) :
    IsDegreeSplit factors
      (entriesOf [(remaining.toPolynomial.natDegree, remaining)]) := by
  have isProduct := state.isProduct
  rw [isProduct] at below nonconstant
  obtain ⟨factor, rfl⟩ := eq_singleton_of_small state.separate lowest below nonconstant
  rw [Finset.prod_singleton] at isProduct
  have split :=
    isDegreeSplit_singleton
      (state.separate.irreducible factor (Finset.mem_singleton_self factor))
  simpa [entriesOf, isProduct] using split

/-- While a large degree is left, later groups are not listed under a passed degree. -/
theorem distinctDegreeLoop_head
    (odd : prime ≠ 2)
    (small : prime < 2 ^ 63)
    {rounds d : ℕ}
    {factors : Finset (Polynomial (ZMod prime))}
    {remaining : MultivariatePolynomial single (ZMod prime)}
    {groups : List (ℕ × MultivariatePolynomial single (ZMod prime))}
    (state : LoopState factors d remaining)
    (wide : 2 ^ 31 < remaining.toPolynomial.natDegree)
    (returned : distinctDegreeLoop prime rounds d remaining = .ok groups) :
    ∃ group rest, groups = group :: rest ∧ d ≤ group.1 := by
  classical
  have bounded := state.wideBounded wide
  induction rounds generalizing d factors remaining groups with
  | zero =>
      rcases distinctDegreeLoop_cases state.monic returned with
        ⟨isOne, _⟩ | ⟨below, _⟩ | ⟨_, _, _, _, _, _, impossible, _⟩
      · rw [isOne, Polynomial.natDegree_one] at wide
        omega
      · rw [state.doubled] at below
        omega
      · cases impossible
  | succ rounds inductionHypothesis =>
      rcases distinctDegreeLoop_cases state.monic returned with
        ⟨isOne, _⟩ | ⟨below, _⟩ | ⟨goesOn, _, next, _, g, rest, same, loops, round⟩
      · rw [isOne, Polynomial.natDegree_one] at wide
        omega
      · rw [state.doubled] at below
        omega
      · cases same
        rcases round.listed with ⟨_, rfl⟩ | ⟨isOne, rfl⟩
        · exact ⟨(d, g), rest, rfl, le_rfl⟩
        · obtain ⟨_, nextProduct⟩ := state.round small (by omega) round
          have nextState :=
            state.next odd (state.doubled ▸ goesOn) (fun factor => Finset.mem_filter)
              nextProduct
          have nextSame : next.toPolynomial = remaining.toPolynomial := by
            rw [← round.product, isOne, one_mul]
          have nextWide : 2 ^ 31 < next.toPolynomial.natDegree := nextSame ▸ wide
          rw [state.succ_unwrapped] at loops
          obtain ⟨group, others, shape, atLeast⟩ :=
            inductionHypothesis nextState nextWide loops (nextState.wideBounded nextWide)
          exact ⟨group, others, shape, by omega⟩

open scoped Classical in
/-- Groups that leave out or mix the lowest factors are not a split. -/
theorem LoopState.not_split
    (odd : prime ≠ 2)
    (small : prime < 2 ^ 63)
    {rounds d : ℕ}
    {factors : Finset (Polynomial (ZMod prime))}
    {remaining next frobenius g : MultivariatePolynomial single (ZMod prime)}
    {rest groups : List (ℕ × MultivariatePolynomial single (ZMod prime))}
    (state : LoopState factors d remaining)
    (wide : 2 ^ 31 < remaining.toPolynomial.natDegree)
    (goesOn : 2 * d ≤ remaining.toPolynomial.natDegree)
    (round : DegreeRound d remaining next frobenius g rest groups)
    (loops : distinctDegreeLoop prime rounds (d + 1) next = .ok rest)
    (differ :
      factors.filter (fun factor =>
          factor ∣ computedPower prime d remaining.toPolynomial.natDegree) ≠
        factors.filter (fun factor => factor.natDegree = d)) :
    ¬ IsDegreeSplit factors (entriesOf groups) := by
  intro split
  obtain ⟨taken, nextProduct⟩ := state.round small (by omega) round
  rcases round.listed with ⟨_, rfl⟩ | ⟨isOne, rfl⟩
  · have isGroup := split.group (d, g.toPolynomial) List.mem_cons_self
    refine differ (state.separate.eq_of_prod_eq (Finset.filter_subset _ _)
      (Finset.filter_subset _ _) ?_)
    rw [← taken]
    exact isGroup
  · have noneTaken :
        factors.filter (fun factor =>
          factor ∣ computedPower prime d remaining.toPolynomial.natDegree) = ∅ := by
      refine (state.separate.mono (Finset.filter_subset _ factors)).eq_empty_of_natDegree ?_
      rw [← taken, isOne, Polynomial.natDegree_one]
    rw [noneTaken] at differ
    obtain ⟨factor, inLowest⟩ := Finset.nonempty_iff_ne_empty.mpr differ.symm
    obtain ⟨member, sameDegree⟩ := Finset.mem_filter.mp inLowest
    -- All groups are listed under degrees above `d`, and none contains the factor.
    have nextState :=
      state.next odd goesOn (fun factor => Finset.mem_filter) nextProduct
    have nextWide : 2 ^ 31 < next.toPolynomial.natDegree := by
      rwa [← one_mul next.toPolynomial, ← isOne, round.product]
    obtain ⟨head, others, rfl, atLeast⟩ :=
      distinctDegreeLoop_head odd small nextState nextWide loops
    obtain ⟨entry, entryMember, isDegree⟩ := split.exists_entry state.separate member
    have headFirst := List.pairwise_cons.mp split.increasing
    rcases List.mem_cons.mp entryMember with rfl | inOthers
    · have atHead : head.1 = d := isDegree.trans sameDegree
      omega
    · have afterHead : head.1 < entry.1 := headFirst.1 entry inOthers
      omega

/-- A wide round computes with the wrapped power. -/
theorem computedPower_wide
    {d degree : ℕ}
    (wide : 2 ^ 31 < degree) :
    computedPower prime d degree =
      Polynomial.X ^ (prime ^ d % exponentModulus) - Polynomial.X := by
  rw [computedPower, computedExponent, if_neg (not_le.mpr wide)]

/-- Where the loop ends, it returns the split, and no power is needed any more. -/
theorem LoopState.split_end_iff
    {d : ℕ}
    {factors : Finset (Polynomial (ZMod prime))}
    {remaining : MultivariatePolynomial single (ZMod prime)}
    {groups : List (ℕ × MultivariatePolynomial single (ZMod prime))}
    (state : LoopState factors d remaining)
    (lowest : ∀ factor ∈ factors, d ≤ factor.natDegree)
    (ended :
      (remaining.toPolynomial = 1 ∧ groups = []) ∨
        (remaining.toPolynomial.natDegree < 2 * d % exponentModulus ∧
          0 < remaining.toPolynomial.natDegree ∧
          groups = [(remaining.toPolynomial.natDegree, remaining)])) :
    IsDegreeSplit factors (entriesOf groups) ↔ PowersSurvive factors d := by
  rw [state.doubled] at ended
  have narrow : remaining.toPolynomial.natDegree ≤ 2 ^ 31 := by
    by_contra wide
    have bounded := state.wideBounded (not_le.mp wide)
    rcases ended with ⟨isOne, _⟩ | ⟨below, _⟩
    · rw [isOne, Polynomial.natDegree_one] at wide
      omega
    · omega
  refine iff_of_true ?_ (powersSurvive_of_narrow state.separate (state.isProduct ▸ narrow))
  rcases ended with ⟨isOne, rfl⟩ | ⟨below, nonconstant, rfl⟩
  · have isEmpty : factors = ∅ := by
      refine state.separate.eq_empty_of_natDegree ?_
      rw [← state.isProduct, isOne, Polynomial.natDegree_one]
    rw [isEmpty]
    exact isDegreeSplit_empty
  · exact state.split_last lowest below nonconstant

/-- The loop returns the split exactly when every power it needs survives. -/
theorem distinctDegreeLoop_split_iff
    (odd : prime ≠ 2)
    (small : prime < 2 ^ 63)
    {rounds d : ℕ}
    {factors : Finset (Polynomial (ZMod prime))}
    {remaining : MultivariatePolynomial single (ZMod prime)}
    {groups : List (ℕ × MultivariatePolynomial single (ZMod prime))}
    (state : LoopState factors d remaining)
    (lowest : ∀ factor ∈ factors, d ≤ factor.natDegree)
    (returned : distinctDegreeLoop prime rounds d remaining = .ok groups) :
    IsDegreeSplit factors (entriesOf groups) ↔ PowersSurvive factors d := by
  classical
  induction rounds generalizing d factors remaining groups with
  | zero =>
      rcases distinctDegreeLoop_cases state.monic returned with
        isOne | below | ⟨_, _, _, _, _, _, impossible, _⟩
      · exact state.split_end_iff lowest (Or.inl isOne)
      · exact state.split_end_iff lowest (Or.inr below)
      · cases impossible
  | succ rounds inductionHypothesis =>
      rcases distinctDegreeLoop_cases state.monic returned with
        isOne | below | ⟨goesOn, _, next, _, g, rest, same, loops, round⟩
      · exact state.split_end_iff lowest (Or.inl isOne)
      · exact state.split_end_iff lowest (Or.inr below)
      · cases same
        have positive := state.positive
        rw [state.doubled] at goesOn
        rw [state.succ_unwrapped] at loops
        obtain ⟨taken, nextProduct⟩ := state.round small (by omega) round
        have nextState :=
          state.next odd goesOn (fun factor => Finset.mem_filter) nextProduct
        by_cases exact :
            ∀ factor ∈ factors,
              factor ∣ computedPower prime d remaining.toPolynomial.natDegree ↔
                factor.natDegree = d
        · have sameTaken := Finset.filter_congr exact
          have sameLeft :=
            Finset.filter_congr (fun factor member => not_congr (exact factor member))
          rw [sameTaken] at taken
          rw [sameLeft] at nextState
          rw [round.split_iff state.separate lowest taken,
            inductionHypothesis nextState (lowest_filter lowest) loops]
          by_cases wide : 2 ^ 31 < remaining.toPolynomial.natDegree
          · rw [computedPower_wide wide] at exact
            rw [powersSurvive_wide state.separate lowest (state.isProduct ▸ wide)]
            exact (and_iff_right exact).symm
          · have nextNarrow :
                next.toPolynomial.natDegree ≤ remaining.toPolynomial.natDegree :=
              Polynomial.natDegree_le_of_dvd (round.product ▸ dvd_mul_left _ _)
                state.monic.ne_zero
            refine iff_of_true
              (powersSurvive_of_narrow nextState.separate ?_)
              (powersSurvive_of_narrow state.separate ?_)
            · rw [← nextState.isProduct]
              omega
            · rw [← state.isProduct]
              omega
        · have wide : 2 ^ 31 < remaining.toPolynomial.natDegree := by
            by_contra narrow
            exact exact
              (filter_computedPower_narrow state.separate positive lowest
                (not_lt.mp narrow))
          refine iff_of_false ?_ ?_
          · refine state.not_split odd small wide goesOn round loops ?_
            exact fun sameFilter => exact (Finset.filter_inj'.mp sameFilter)
          · rw [powersSurvive_wide state.separate lowest (state.isProduct ▸ wide),
              ← computedPower_wide wide]
            exact fun survive => exact survive.1

end PolyCore
