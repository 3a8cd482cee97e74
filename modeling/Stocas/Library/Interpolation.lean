import Mathlib.Algebra.MvPolynomial.Degrees
import Mathlib.LinearAlgebra.Lagrange

namespace Interpolation

open MvPolynomial

/-!
# Interpolation in one of several variables

The samples are polynomials in the other variables.  Their interpolant is the sum of
the samples times the basis polynomials of Lagrange in the variable.  Seen as a
polynomial in that variable alone, with the polynomials as its coefficients, a
polynomial of lower degree than the number of points is determined by its values.
-/

variable {σ K ι : Type*} [Field K] [DecidableEq ι]

/-- The interpolant of the samples at the points. -/
noncomputable def interpolant
    (main : σ)
    (indices : Finset ι)
    (points : ι → K)
    (samples : ι → MvPolynomial σ K) :
    MvPolynomial σ K :=
  ∑ index ∈ indices,
    samples index * Polynomial.aeval (X main) (Lagrange.basis indices points index)

variable {indices : Finset ι} {points : ι → K} {samples : ι → MvPolynomial σ K} {main : σ}

/-- The product of the linear factors over their value is the basis polynomial. -/
theorem aeval_basis
    (value : MvPolynomial σ K)
    (index : ι) :
    (∏ other ∈ indices.erase index, (value - C (points other))) *
        C (∏ other ∈ indices.erase index, (points index - points other))⁻¹ =
      Polynomial.aeval value (Lagrange.basis indices points index) := by
  rw [Lagrange.basis, map_prod, ← Finset.prod_inv_distrib, map_prod,
    ← Finset.prod_mul_distrib]
  refine Finset.prod_congr rfl (fun other _ => ?_)
  rw [Lagrange.basisDivisor, map_mul, map_sub, Polynomial.aeval_C, Polynomial.aeval_C,
    Polynomial.aeval_X, mul_comm]
  rfl

/-- Where the variable takes a point as its value, the interpolant is the sample. -/
theorem map_interpolant
    (distinct : Set.InjOn points indices)
    {index : ι}
    (member : index ∈ indices)
    {substitution : MvPolynomial σ K →ₐ[K] MvPolynomial σ K}
    (substitutes : substitution (X main) = C (points index))
    (keeps : ∀ other ∈ indices, substitution (samples other) = samples other) :
    substitution (interpolant main indices points samples) = samples index := by
  have value
      (other : ι) :
      substitution (Polynomial.aeval (X main) (Lagrange.basis indices points other)) =
        C ((Lagrange.basis indices points other).eval (points index)) := by
    rw [← Polynomial.aeval_algHom_apply, substitutes, ← MvPolynomial.algebraMap_eq,
      Polynomial.aeval_algebraMap_apply_eq_algebraMap_eval]
  rw [interpolant, map_sum, Finset.sum_eq_single_of_mem index member]
  · rw [map_mul, keeps index member, value, Lagrange.eval_basis_self distinct member, C_1,
      mul_one]
  · intro other otherMember differ
    rw [map_mul, value, Lagrange.eval_basis_of_ne differ member, C_0, mul_zero]

/-- The variable occurs with exponents below the bound only. -/
def DegreeBelow
    (main : σ)
    (bound : ℕ)
    (poly : MvPolynomial σ K) :
    Prop :=
  ∀ exponents, poly.coeff exponents ≠ 0 → exponents main < bound

theorem degreeBelow_iff
    {bound : ℕ}
    (positive : 0 < bound)
    {poly : MvPolynomial σ K} :
    DegreeBelow main bound poly ↔ poly.degreeOf main < bound := by
  simp only [DegreeBelow, degreeOf_lt_iff positive, mem_support_iff]

/-- The value of a polynomial at the variable has no higher degree in it. -/
theorem degreeOf_aeval_X
    (poly : Polynomial K) :
    (Polynomial.aeval (X main : MvPolynomial σ K) poly).degreeOf main ≤ poly.natDegree := by
  rw [Polynomial.aeval_eq_sum_range]
  refine (degreeOf_sum_le main _ _).trans (Finset.sup_le (fun exponent member => ?_))
  have atMost : exponent ≤ poly.natDegree := Nat.lt_succ_iff.mp (Finset.mem_range.mp member)
  have power : ((X main : MvPolynomial σ K) ^ exponent).degreeOf main ≤ exponent := by
    refine (degreeOf_pow_le main _ _).trans ?_
    rw [degreeOf_X_self, mul_one]
  rw [smul_eq_C_mul]
  exact ((degreeOf_C_mul_le _ main _).trans power).trans atMost

/-- Samples without the variable leave it a degree below the number of points. -/
theorem degreeBelow_interpolant
    (distinct : Set.InjOn points indices)
    (free : ∀ index ∈ indices, (samples index).degreeOf main = 0) :
    DegreeBelow main indices.card (interpolant main indices points samples) := by
  rcases indices.eq_empty_or_nonempty with rfl | nonempty
  · intro exponents occurs
    simp [interpolant] at occurs
  · have positive := nonempty.card_pos
    rw [degreeBelow_iff positive, interpolant]
    refine lt_of_le_of_lt
      ((degreeOf_sum_le main _ _).trans (Finset.sup_le (fun index member => ?_)))
      (Nat.sub_one_lt positive.ne')
    refine (degreeOf_mul_le main _ _).trans ?_
    rw [free index member, zero_add]
    refine (degreeOf_aeval_X _).trans ?_
    rw [Lagrange.natDegree_basis distinct member]

/-- A polynomial in one variable has degree zero in the others. -/
theorem degreeOf_aeval_X_of_ne
    {other : σ}
    (differ : other ≠ main)
    (poly : Polynomial K) :
    (Polynomial.aeval (X main : MvPolynomial σ K) poly).degreeOf other = 0 := by
  rw [Polynomial.aeval_eq_sum_range]
  refine Nat.le_zero.mp
    ((degreeOf_sum_le other _ _).trans (Finset.sup_le (fun exponent _ => ?_)))
  have power : ((X main : MvPolynomial σ K) ^ exponent).degreeOf other ≤ 0 := by
    refine (degreeOf_pow_le other _ _).trans ?_
    rw [degreeOf_X_of_ne differ, mul_zero]
  rw [smul_eq_C_mul]
  exact (degreeOf_C_mul_le _ other _).trans power

/-- In another variable the interpolant has no higher degree than some sample. -/
theorem degreeOf_interpolant_le
    {other : σ}
    (differ : other ≠ main) :
    (interpolant main indices points samples).degreeOf other ≤
      indices.sup (fun index => (samples index).degreeOf other) := by
  refine (degreeOf_sum_le other _ _).trans (Finset.sup_mono_fun (fun index _ => ?_))
  refine (degreeOf_mul_le other _ _).trans ?_
  rw [degreeOf_aeval_X_of_ne differ, add_zero]

/-- A polynomial as one in the variable alone, with polynomials as its coefficients. -/
noncomputable def isolate
    [DecidableEq σ]
    (main : σ) :
    MvPolynomial σ K →ₐ[K] Polynomial (MvPolynomial σ K) :=
  aeval (fun index => if index = main then Polynomial.X else Polynomial.C (X index))

section Isolate

variable [DecidableEq σ]

omit [DecidableEq ι] in
/-- A value of the isolated polynomial substitutes it for the variable. -/
theorem eval_isolate
    (value poly : MvPolynomial σ K) :
    (isolate main poly).eval value =
      aeval (fun index => if index = main then value else X index) poly := by
  have same :
      ((Polynomial.aeval value).restrictScalars K).comp
          (isolate main : MvPolynomial σ K →ₐ[K] _) =
        aeval (fun index => if index = main then value else X index) := by
    apply MvPolynomial.algHom_ext
    intro index
    by_cases isMain : index = main
    · simp [isolate, isMain]
    · simp [isolate, isMain]
  simpa [Polynomial.coe_aeval_eq_eval] using DFunLike.congr_fun same poly

omit [DecidableEq ι] in
/-- The variable itself is the value that gives the polynomial back. -/
theorem eval_isolate_X
    (poly : MvPolynomial σ K) :
    (isolate main poly).eval (X main) = poly := by
  have unchanged :
      (fun index => if index = main then X main else X index) =
        (X : σ → MvPolynomial σ K) := by
    funext index
    by_cases isMain : index = main
    · rw [if_pos isMain, isMain]
    · rw [if_neg isMain]
  rw [eval_isolate, unchanged, aeval_X_left_apply]

/-- A monomial has its exponent of the variable as its degree. -/
theorem natDegree_isolate_monomial
    (exponents : σ →₀ ℕ)
    (coefficient : K) :
    (isolate main (monomial exponents coefficient)).natDegree ≤ exponents main := by
  have factorDegree
      (index : σ) :
      ((if index = main then Polynomial.X else Polynomial.C (X index) :
          Polynomial (MvPolynomial σ K)) ^ exponents index).natDegree ≤
        if index = main then exponents main else 0 := by
    by_cases isMain : index = main
    · simp [isMain]
    · rw [if_neg isMain, if_neg isMain, ← Polynomial.C_pow, Polynomial.natDegree_C]
  rw [isolate, aeval_monomial, Polynomial.algebraMap_apply]
  refine (Polynomial.natDegree_C_mul_le _ _).trans ?_
  refine (Polynomial.natDegree_prod_le _ _).trans ?_
  refine (Finset.sum_le_sum (fun index _ => factorDegree index)).trans ?_
  rw [Finset.sum_ite_eq']
  split
  · exact le_rfl
  · exact Nat.zero_le _

/-- The degree in the variable bounds the degree of the isolated polynomial. -/
theorem degree_isolate_lt
    {bound : ℕ}
    {poly : MvPolynomial σ K}
    (below : DegreeBelow main bound poly) :
    (isolate main poly).degree < bound := by
  rw [← Polynomial.mem_degreeLT, poly.as_sum, map_sum]
  refine Submodule.sum_mem _ (fun exponents member => ?_)
  rw [Polynomial.mem_degreeLT]
  refine Polynomial.degree_le_natDegree.trans_lt ?_
  exact_mod_cast (natDegree_isolate_monomial exponents _).trans_lt
    (below exponents (mem_support_iff.mp member))

omit [DecidableEq ι] in
/-- Polynomials of degree below the number of points agree if their values do. -/
theorem eq_of_isolate_values
    (distinct : Set.InjOn points indices)
    {left right : MvPolynomial σ K}
    (leftBelow : DegreeBelow main indices.card left)
    (rightBelow : DegreeBelow main indices.card right)
    (sameValues :
      ∀ index ∈ indices,
        (isolate main left).eval (C (points index)) =
          (isolate main right).eval (C (points index))) :
    left = right := by
  have injective : Set.InjOn (fun index => (C (points index) : MvPolynomial σ K)) indices :=
    fun first firstMember second secondMember same =>
      distinct firstMember secondMember (C_injective σ K same)
  have same :=
    Polynomial.eq_of_degrees_lt_of_eval_index_eq indices injective
      (degree_isolate_lt leftBelow) (degree_isolate_lt rightBelow) sameValues
  calc
    left = (isolate main left).eval (X main) := (eval_isolate_X left).symm
    _ = (isolate main right).eval (X main) := by rw [same]
    _ = right := eval_isolate_X right

end Isolate

end Interpolation
