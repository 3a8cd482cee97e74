import Mathlib.Algebra.Polynomial.SpecificDegree
import Stocas.Poly.DistinctDegrees

namespace PolyCore

open DegreeParts
open MultivariatePolynomial
open SquarefreeParts
open SymbolTable (Symbol)

/-!
# The result of splitting by degrees

Splitting a monic squarefree polynomial by degrees always ends.  The result is the
documented one exactly when the powers of the prime that it needs survive their
reduction modulo `2^32`, which is no condition up to degree `2^31`.  For a prime with
remainder one modulo `2^32`, all factors of a larger polynomial come out as linear ones.
-/

variable {prime : ℕ} [Fact prime.Prime] {single : Fin 1 → Symbol}

open scoped Classical in
/--
What the documentation of `distinct_degree_split` says of its result, and that the
degrees increase.
-/
structure GroupsByDegree
    (f : MultivariatePolynomial single (ZMod prime))
    (groups : List (ℕ × MultivariatePolynomial single (ZMod prime))) :
    Prop where
  increasing : groups.Pairwise (fun earlier later => earlier.1 < later.1)
  product : productOf (groups.map Prod.snd) = f.toPolynomial
  group :
    ∀ entry ∈ groups,
      entry.2.toPolynomial =
        ∏ factor ∈ factorsOf f.toPolynomial with factor.natDegree = entry.1, factor

/-- The listed groups are not constant. -/
theorem distinctDegreeLoop_nonconstant
    {rounds d : ℕ}
    {remaining : MultivariatePolynomial single (ZMod prime)}
    {groups : List (ℕ × MultivariatePolynomial single (ZMod prime))}
    (monic : remaining.toPolynomial.Monic)
    (returned : distinctDegreeLoop prime rounds d remaining = .ok groups) :
    ∀ group ∈ groups, 0 < group.2.toPolynomial.natDegree := by
  induction rounds generalizing d remaining groups with
  | zero =>
      rcases distinctDegreeLoop_cases monic returned with
        ⟨_, rfl⟩ | ⟨_, nonconstant, rfl⟩ | ⟨_, _, _, _, _, _, impossible, _⟩
      · simp
      · simpa using nonconstant
      · cases impossible
  | succ rounds inductionHypothesis =>
      rcases distinctDegreeLoop_cases monic returned with
        ⟨_, rfl⟩ | ⟨_, nonconstant, rfl⟩ | ⟨_, _, _, _, _, _, same, loops, round⟩
      · simp
      · simpa using nonconstant
      · cases same
        have restNonconstant := inductionHypothesis round.nextMonic loops
        rcases round.listed with ⟨nonconstant, rfl⟩ | ⟨_, rfl⟩
        · exact List.forall_mem_cons.mpr ⟨nonconstant, restNonconstant⟩
        · exact restNonconstant

/-- The documented result is the split of the factors. -/
theorem groupsByDegree_iff
    {f : MultivariatePolynomial single (ZMod prime)}
    {groups : List (ℕ × MultivariatePolynomial single (ZMod prime))}
    (isProduct : f.toPolynomial = ∏ factor ∈ factorsOf f.toPolynomial, factor)
    (nonconstant : ∀ group ∈ groups, 0 < group.2.toPolynomial.natDegree) :
    GroupsByDegree f groups ↔
      IsDegreeSplit (factorsOf f.toPolynomial) (entriesOf groups) := by
  have products :
      ((entriesOf groups).map Prod.snd).prod = productOf (groups.map Prod.snd) := by
    rw [entriesOf, productOf, List.map_map, List.map_map]
    rfl
  constructor
  · rintro ⟨increasing, product, group⟩
    refine ⟨List.pairwise_map.mpr increasing, ?_, ?_, ?_⟩
    · exact List.forall_mem_map.mpr nonconstant
    · exact List.forall_mem_map.mpr group
    · rw [products, product, ← isProduct]
  · rintro ⟨increasing, _, group, product⟩
    rw [entriesOf, List.pairwise_map] at increasing
    refine ⟨increasing, ?_, List.forall_mem_map.mp group⟩
    rw [← products, product, ← isProduct]

/-- A polynomial of the source is a state of the loop with all its factors. -/
theorem loopState_first
    {f : MultivariatePolynomial single (ZMod prime)}
    (fits : f.Fits)
    (monic : f.toPolynomial.Monic)
    (squarefree : Squarefree f.toPolynomial) :
    LoopState (factorsOf f.toPolynomial) 1 f where
  separate := separate_factorsOf monic.ne_zero
  isProduct := (prod_factorsOf_squarefree monic squarefree).symm
  fits := by
    obtain ⟨leading, rest, shape⟩ :=
      exists_leading (fun isZero => monic.ne_zero (toPolynomial_eq_zero_iff.mpr isZero))
    rw [natDegree_of_terms shape]
    exact fits leading (shape ▸ List.mem_cons_self) 0
  positive := Nat.one_pos
  bounded := by norm_num
  wideBounded _ := by norm_num

/-- Splitting by degrees ends. -/
theorem distinctDegreeSplit_returns
    (odd : prime ≠ 2)
    (small : prime < 2 ^ 63)
    {f : MultivariatePolynomial single (ZMod prime)}
    (fits : f.Fits)
    (monic : f.toPolynomial.Monic)
    (squarefree : Squarefree f.toPolynomial) :
    ∃ groups, distinctDegreeSplit prime f = .ok groups := by
  refine distinctDegreeLoop_returns odd small (loopState_first fits monic squarefree) ?_
  unfold exponentModulus
  norm_num

/-- What was returned is the documented result exactly when the powers survive. -/
theorem groupsByDegree_returned_iff
    (odd : prime ≠ 2)
    (small : prime < 2 ^ 63)
    {f : MultivariatePolynomial single (ZMod prime)}
    {groups : List (ℕ × MultivariatePolynomial single (ZMod prime))}
    (fits : f.Fits)
    (monic : f.toPolynomial.Monic)
    (squarefree : Squarefree f.toPolynomial)
    (returned : distinctDegreeSplit prime f = .ok groups) :
    GroupsByDegree f groups ↔ PowersSurvive (factorsOf f.toPolynomial) 1 := by
  have state := loopState_first fits monic squarefree
  have lowest : ∀ factor ∈ factorsOf f.toPolynomial, 1 ≤ factor.natDegree :=
    fun factor member => (state.separate.irreducible factor member).natDegree_pos
  rw [groupsByDegree_iff state.isProduct (distinctDegreeLoop_nonconstant monic returned)]
  exact distinctDegreeLoop_split_iff odd small state lowest returned

/--
Splitting a squarefree polynomial by degrees always ends, and the result is the
documented one exactly when the needed powers of the prime survive their reduction
modulo `2^32`.
-/
theorem distinctDegreeSplit_groupsByDegree_iff
    (odd : prime ≠ 2)
    (small : prime < 2 ^ 63)
    (f : MultivariatePolynomial single (ZMod prime))
    (fits : f.Fits)
    (monic : f.toPolynomial.Monic)
    (squarefree : Squarefree f.toPolynomial) :
    ∃ groups,
      distinctDegreeSplit prime f = .ok groups ∧
      (GroupsByDegree f groups ↔ PowersSurvive (factorsOf f.toPolynomial) 1) := by
  obtain ⟨groups, returned⟩ := distinctDegreeSplit_returns odd small fits monic squarefree
  exact ⟨groups, returned,
    groupsByDegree_returned_iff odd small fits monic squarefree returned⟩

/-- `x * (x^2 + 1)` over the field with three elements. -/
def linearTimesQuadratic : MultivariatePolynomial oneVariable (ZMod 3) :=
  xPoly 3 * (xPoly 3 * xPoly 3 + constant 1)

theorem toPolynomial_linearTimesQuadratic :
    linearTimesQuadratic.toPolynomial =
      Polynomial.X * (Polynomial.X ^ 2 + Polynomial.C 1) := by
  simp [linearTimesQuadratic, xPoly, Polynomial.X, Polynomial.monomial_mul_monomial,
    Polynomial.monomial_pow]

/-- Minus one is not a square modulo three. -/
theorem irreducible_quadratic :
    Irreducible (Polynomial.X ^ 2 + Polynomial.C 1 : Polynomial (ZMod 3)) := by
  apply Polynomial.irreducible_of_degree_le_three_of_not_isRoot
  · rw [Polynomial.natDegree_X_pow_add_C]
    decide
  · intro value
    rw [Polynomial.IsRoot.def, Polynomial.eval_add, Polynomial.eval_pow, Polynomial.eval_X,
      Polynomial.eval_C]
    revert value
    decide

theorem monic_quadratic :
    (Polynomial.X ^ 2 + Polynomial.C 1 : Polynomial (ZMod 3)).Monic :=
  Polynomial.monic_X_pow_add_C 1 two_ne_zero

theorem monic_linearTimesQuadratic : linearTimesQuadratic.toPolynomial.Monic := by
  rw [toPolynomial_linearTimesQuadratic]
  exact Polynomial.monic_X.mul monic_quadratic

theorem natDegree_linearTimesQuadratic :
    linearTimesQuadratic.toPolynomial.natDegree = 3 := by
  rw [toPolynomial_linearTimesQuadratic, Polynomial.monic_X.natDegree_mul monic_quadratic,
    Polynomial.natDegree_X, Polynomial.natDegree_X_pow_add_C]

theorem squarefree_linearTimesQuadratic : Squarefree linearTimesQuadratic.toPolynomial := by
  have coprime :
      IsCoprime (Polynomial.X : Polynomial (ZMod 3)) (Polynomial.X ^ 2 + Polynomial.C 1) :=
    ⟨-Polynomial.X, 1, by rw [Polynomial.C_1]; ring⟩
  rw [toPolynomial_linearTimesQuadratic]
  exact squarefree_mul_iff.mpr
    ⟨coprime.isRelPrime, Polynomial.irreducible_X.squarefree,
      irreducible_quadratic.squarefree⟩

/-- Over the field with three elements `x * (x^2 + 1)` is split by degrees. -/
theorem distinctDegreeSplit_groupsByDegree_iff_quadratic :
    ∃ groups,
      distinctDegreeSplit 3 linearTimesQuadratic = .ok groups ∧
        GroupsByDegree linearTimesQuadratic groups := by
  have monic := monic_linearTimesQuadratic
  have squarefree := squarefree_linearTimesQuadratic
  have fits : linearTimesQuadratic.Fits := by
    intro term member index
    have atMost := exponent_le_natDegree member index
    rw [natDegree_linearTimesQuadratic] at atMost
    unfold exponentModulus
    omega
  obtain ⟨groups, returned, documented⟩ :=
    distinctDegreeSplit_groupsByDegree_iff (by decide) (by norm_num) linearTimesQuadratic
      fits monic squarefree
  refine ⟨groups, returned, documented.mpr ?_⟩
  apply powersSurvive_of_narrow (separate_factorsOf monic.ne_zero)
  rw [prod_factorsOf_squarefree monic squarefree, natDegree_linearTimesQuadratic]
  norm_num

/-- Where the first wrapped power is one, all factors come out as linear ones. -/
theorem distinctDegreeSplit_wrong
    (odd : prime ≠ 2)
    (small : prime < 2 ^ 63)
    (wraps : prime % exponentModulus = 1)
    {f : MultivariatePolynomial single (ZMod prime)}
    (fits : f.Fits)
    (monic : f.toPolynomial.Monic)
    (squarefree : Squarefree f.toPolynomial)
    (wide : 2 ^ 31 < f.toPolynomial.natDegree)
    (notLinear : ¬ f.toPolynomial ∣ Polynomial.X ^ prime - Polynomial.X) :
    ∃ groups, distinctDegreeSplit prime f = .ok groups ∧ ¬ GroupsByDegree f groups := by
  obtain ⟨groups, returned⟩ := distinctDegreeSplit_returns odd small fits monic squarefree
  refine ⟨groups, returned, ?_⟩
  rw [groupsByDegree_returned_iff odd small fits monic squarefree returned]
  intro survive
  have state := loopState_first fits monic squarefree
  have lowest : ∀ factor ∈ factorsOf f.toPolynomial, 1 ≤ factor.natDegree :=
    fun factor member => (state.separate.irreducible factor member).natDegree_pos
  have first :=
    ((powersSurvive_wide state.separate lowest (state.isProduct ▸ wide)).mp survive).1
  refine notLinear ?_
  have product := state.isProduct
  rw [product]
  refine Finset.prod_dvd_of_coprime ?_ ?_
  · intro left leftMember right rightMember differ
    exact state.separate.isCoprime_of_ne leftMember rightMember differ
  · intro factor member
    have linear : factor.natDegree = 1 := by
      refine (first factor member).mp ?_
      rw [pow_one, wraps, pow_one, sub_self]
      exact dvd_zero factor
    have divides :=
      (dvd_X_pow_card_pow_sub_X_iff state.separate Nat.one_pos lowest member).mpr linear
    rwa [Nat.card_zmod, pow_one] at divides

/-- The roots of unity of an order are not fixed by a power outside of the order. -/
theorem not_X_pow_sub_one_dvd
    {order times rest : ℕ}
    (large : 1 < rest)
    (below : rest < order) :
    ¬ (Polynomial.X ^ order - 1 : Polynomial (ZMod prime)) ∣
        Polynomial.X ^ (order * times + rest) - Polynomial.X := by
  intro divides
  have periodic :
      (Polynomial.X ^ order - 1 : Polynomial (ZMod prime)) ∣
        Polynomial.X ^ (order * times + rest) - Polynomial.X ^ rest := by
    have powers := sub_dvd_pow_sub_pow (Polynomial.X ^ order : Polynomial (ZMod prime)) 1 times
    rw [one_pow, ← pow_mul] at powers
    have scaled := powers.mul_right (Polynomial.X ^ rest)
    rwa [sub_mul, one_mul, ← pow_add] at scaled
  have remainder :
      (Polynomial.X ^ order - 1 : Polynomial (ZMod prime)) ∣
        Polynomial.X ^ rest - Polynomial.X := by
    have difference := dvd_sub divides periodic
    simpa using difference
  have degrees :=
    Polynomial.natDegree_le_of_dvd remainder
      (FiniteField.X_pow_card_sub_X_ne_zero (ZMod prime) large)
  rw [FiniteField.X_pow_card_sub_X_natDegree_eq (ZMod prime) large,
    ← Polynomial.C_1, Polynomial.natDegree_X_pow_sub_C] at degrees
  omega

/-- The polynomial of the roots of unity of an order. -/
def unityPolynomial (prime : ℕ) [Fact prime.Prime] (order : ℕ) :
    MultivariatePolynomial oneVariable (ZMod prime) :=
  fromTerm ⟨fun _ => order⟩ 1 - constant 1

theorem toPolynomial_unityPolynomial
    (order : ℕ) :
    (unityPolynomial prime order).toPolynomial = Polynomial.X ^ order - 1 := by
  rw [unityPolynomial, toPolynomial_sub, toPolynomial_fromTerm, toPolynomial_constant,
    ← Polynomial.X_pow_eq_monomial, Polynomial.C_1]

theorem fits_unityPolynomial
    {order : ℕ}
    (small : order < exponentModulus) :
    (unityPolynomial prime order).Fits :=
  fits_mergeTerms (fits_fromTerm (fun _ => small) 1)
    (fits_fromTerm Monomial.fits_one 1)

section Unity

variable {order : ℕ}

theorem monic_unityPolynomial
    (positive : 0 < order) :
    (unityPolynomial prime order).toPolynomial.Monic := by
  rw [toPolynomial_unityPolynomial, ← Polynomial.C_1]
  exact Polynomial.monic_X_pow_sub_C 1 positive.ne'

theorem squarefree_unityPolynomial
    (positive : 0 < order)
    (below : order < prime) :
    Squarefree (unityPolynomial prime order).toPolynomial := by
  have orderNonzero : (order : ZMod prime) ≠ 0 := by
    rw [Ne, ZMod.natCast_eq_zero_iff]
    exact fun divides => not_lt.mpr (Nat.le_of_dvd positive divides) below
  rw [toPolynomial_unityPolynomial, ← Polynomial.C_1]
  exact (Polynomial.separable_X_pow_sub_C 1 orderNonzero one_ne_zero).squarefree

/-- Many roots of unity are taken for elements of the prime field. -/
theorem distinctDegreeSplit_unity
    (small : prime < 2 ^ 63)
    (wraps : prime % exponentModulus = 1)
    (wide : 2 ^ 31 < order)
    (fits : order < exponentModulus)
    {times rest : ℕ}
    (division : prime = order * times + rest)
    (timesPositive : 0 < times)
    (large : 1 < rest)
    (below : rest < order) :
    ∃ groups,
      distinctDegreeSplit prime (unityPolynomial prime order) = .ok groups ∧
      ¬ GroupsByDegree (unityPolynomial prime order) groups := by
  have atMost : order ≤ order * times := Nat.le_mul_of_pos_right order timesPositive
  have positive : 0 < order := by omega
  refine distinctDegreeSplit_wrong (by omega) small wraps (fits_unityPolynomial fits)
    (monic_unityPolynomial positive) (squarefree_unityPolynomial positive (by omega)) ?_ ?_
  · rw [toPolynomial_unityPolynomial, ← Polynomial.C_1, Polynomial.natDegree_X_pow_sub_C]
    exact wide
  · have notDivides :
        ¬ (Polynomial.X ^ order - 1 : Polynomial (ZMod prime)) ∣
          Polynomial.X ^ (order * times + rest) - Polynomial.X :=
      not_X_pow_sub_one_dvd large below
    rw [← division] at notDivides
    rwa [toPolynomial_unityPolynomial]

end Unity

instance fact_prime_wrapping : Fact (Nat.Prime 77309411329) :=
  ⟨WordPrimes.prime_wrapping⟩

/--
Modulo `18 * 2^32 + 1` the monic and squarefree `x^(2^31 + 1) - 1` is not grouped by
the degrees of its factors.
-/
theorem distinctDegreeSplit_unityPolynomial :
    (unityPolynomial 77309411329 2147483649).Fits ∧
    (unityPolynomial 77309411329 2147483649).toPolynomial.Monic ∧
    Squarefree (unityPolynomial 77309411329 2147483649).toPolynomial ∧
    ∃ groups,
      distinctDegreeSplit 77309411329 (unityPolynomial 77309411329 2147483649) =
        .ok groups ∧
      ¬ GroupsByDegree (unityPolynomial 77309411329 2147483649) groups := by
  refine ⟨fits_unityPolynomial (by norm_num [exponentModulus]),
    monic_unityPolynomial (by norm_num),
    squarefree_unityPolynomial (by norm_num) (by norm_num), ?_⟩
  exact distinctDegreeSplit_unity (by norm_num) (by norm_num [exponentModulus])
    (by norm_num) (by norm_num [exponentModulus])
    (show 77309411329 = 2147483649 * 35 + 2147483614 by norm_num) (by norm_num)
    (by norm_num) (by norm_num)

end PolyCore
