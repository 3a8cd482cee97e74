import Mathlib.Algebra.MvPolynomial.Degrees
import Mathlib.Algebra.MvPolynomial.NoZeroDivisors
import Mathlib.Algebra.MonoidAlgebra.MapDomain
import Mathlib.Data.ZMod.Basic

namespace WrappedExponents

open MvPolynomial (monomial)

/-!
# Polynomials with exponents modulo a number

When exponents are added modulo `N`, polynomials multiply in the algebra of the
exponent vectors modulo `N`.  Polynomials whose exponents are below `N` are told
apart there.
-/

variable {σ K : Type*} [CommSemiring K] (N : ℕ)

/-- An exponent vector modulo `N`. -/
def residues : (σ →₀ ℕ) →+ (σ → ZMod N) where
  toFun exponents index := exponents index
  map_zero' := by
    funext index
    simp
  map_add' left right := by
    funext index
    simp

/-- A polynomial with its exponents taken modulo `N`. -/
noncomputable def wrap :
    MvPolynomial σ K →+* AddMonoidAlgebra K (σ → ZMod N) :=
  AddMonoidAlgebra.mapDomainRingHom K (residues N)

/-- No exponent reaches the number. -/
def Below
    (poly : MvPolynomial σ K) :
    Prop :=
  ∀ exponents, poly.coeff exponents ≠ 0 → ∀ index, exponents index < N

variable {N}

theorem below_zero : Below N (0 : MvPolynomial σ K) :=
  fun exponents occurs => (occurs (MvPolynomial.coeff_zero exponents)).elim

theorem wrap_monomial
    (exponents : σ →₀ ℕ)
    (coefficient : K) :
    wrap N (monomial exponents coefficient) =
      AddMonoidAlgebra.single (residues N exponents) coefficient := by
  exact AddMonoidAlgebra.mapDomain_single

/-- Exponents that agree modulo `N` give the same monomial. -/
theorem wrap_monomial_congr
    {left right : σ →₀ ℕ}
    (congruent : ∀ index, left index % N = right index % N)
    (coefficient : K) :
    wrap N (monomial left coefficient) = wrap N (monomial right coefficient) := by
  have same : residues N left = residues N right := by
    funext index
    exact (ZMod.natCast_eq_natCast_iff' _ _ N).mpr (congruent index)
  rw [wrap_monomial, wrap_monomial, same]

/-- Exponent vectors below `N` are told apart modulo `N`. -/
theorem residues_injOn :
    Set.InjOn (residues N) {exponents : σ →₀ ℕ | ∀ index, exponents index < N} := by
  intro left leftBelow right rightBelow same
  ext index
  have congruent := (ZMod.natCast_eq_natCast_iff' _ _ N).mp (congrFun same index)
  rwa [Nat.mod_eq_of_lt (leftBelow index), Nat.mod_eq_of_lt (rightBelow index)]
    at congruent

/-- Polynomials below `N` are told apart modulo `N`. -/
theorem eq_of_wrap_eq
    {left right : MvPolynomial σ K}
    (leftBelow : Below N left)
    (rightBelow : Below N right)
    (same : wrap N left = wrap N right) :
    left = right := by
  refine AddMonoidAlgebra.coeff_injective ?_
  refine Finsupp.mapDomain_injOn _ residues_injOn ?_ ?_
    (congrArg AddMonoidAlgebra.coeff same)
  · intro exponents occurs
    exact leftBelow exponents (Finsupp.mem_support_iff.mp occurs)
  · intro exponents occurs
    exact rightBelow exponents (Finsupp.mem_support_iff.mp occurs)

/-- The polynomial with the remainder of every exponent. -/
noncomputable def remainders
    (N : ℕ)
    (poly : MvPolynomial σ K) :
    MvPolynomial σ K :=
  ∑ exponents ∈ poly.support,
    monomial (exponents.mapRange (· % N) (Nat.zero_mod N)) (poly.coeff exponents)

theorem wrap_remainders
    (poly : MvPolynomial σ K) :
    wrap N (remainders N poly) = wrap N poly := by
  have same :
      ∀ exponents ∈ poly.support,
        wrap N (monomial (exponents.mapRange (· % N) (Nat.zero_mod N))
            (poly.coeff exponents)) =
          wrap N (monomial exponents (poly.coeff exponents)) := by
    intro exponents _
    apply wrap_monomial_congr
    intro index
    rw [Finsupp.mapRange_apply, Nat.mod_mod]
  rw [remainders, map_sum, Finset.sum_congr rfl same, ← map_sum,
    MvPolynomial.support_sum_monomial_coeff]

theorem below_remainders
    (positive : 0 < N)
    (poly : MvPolynomial σ K) :
    Below N (remainders N poly) := by
  classical
  intro exponents occurs index
  rw [remainders, MvPolynomial.coeff_sum] at occurs
  obtain ⟨original, _, found⟩ := Finset.exists_ne_zero_of_sum_ne_zero occurs
  rw [MvPolynomial.coeff_monomial] at found
  split_ifs at found with same
  · rw [← same, Finsupp.mapRange_apply]
    exact Nat.mod_lt _ positive
  · exact (found rfl).elim

/-- Polynomials below `N` are the remainders of what they are the wrapping of. -/
theorem eq_remainders
    {left right : MvPolynomial σ K}
    (positive : 0 < N)
    (below : Below N left)
    (same : wrap N left = wrap N right) :
    left = remainders N right :=
  eq_of_wrap_eq below (below_remainders positive right)
    (same.trans (wrap_remainders right).symm)

/-- Below `N` nothing is replaced by its remainder. -/
theorem remainders_of_below
    {poly : MvPolynomial σ K}
    (positive : 0 < N)
    (below : Below N poly) :
    remainders N poly = poly :=
  (eq_remainders positive below rfl).symm

/-- A polynomial is below `N` when its degree in each variable is. -/
theorem below_iff_degreeOf
    (positive : 0 < N)
    {poly : MvPolynomial σ K} :
    Below N poly ↔ ∀ index, poly.degreeOf index < N := by
  simp only [MvPolynomial.degreeOf_lt_iff positive, MvPolynomial.mem_support_iff]
  exact ⟨fun below index exponents occurs => below exponents occurs index,
    fun below exponents occurs index => below index exponents occurs⟩

/-- A factor of lower degree in each variable keeps a product below `N`. -/
theorem Below.mul_of_degreeOf_le
    [NoZeroDivisors K]
    (positive : 0 < N)
    {factor smaller other : MvPolynomial σ K}
    (below : Below N (factor * other))
    (factorNonzero : factor ≠ 0)
    (lower : ∀ index, smaller.degreeOf index ≤ factor.degreeOf index) :
    Below N (smaller * other) := by
  by_cases otherZero : other = 0
  · rw [otherZero, mul_zero]
    exact below_zero
  · rw [below_iff_degreeOf positive] at below ⊢
    intro index
    calc
      (smaller * other).degreeOf index
          ≤ smaller.degreeOf index + other.degreeOf index :=
        MvPolynomial.degreeOf_mul_le index smaller other
      _ ≤ factor.degreeOf index + other.degreeOf index :=
        Nat.add_le_add_right (lower index) _
      _ = (factor * other).degreeOf index :=
        (MvPolynomial.degreeOf_mul_eq factorNonzero otherZero).symm
      _ < N := below index

end WrappedExponents
