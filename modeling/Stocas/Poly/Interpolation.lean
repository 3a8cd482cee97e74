import Stocas.Library.Interpolation
import Stocas.Library.Related
import Stocas.Poly.DistinctDegreeSplit
import Stocas.Poly.VariableValues

namespace PolyCore

open Interpolation (interpolant)
open MvPolynomial (C X)
open RelatedOutcomes (Related related_foldlM)
open SymbolTable (Symbol)
open WrappedExponents (wrap)

/-!
# Interpolation with 32-bit exponents

`lagrange_interpolate` sums the samples times the basis polynomials of their points.
The sum is the interpolant with its exponents wrapped, and up to `2^32` points no
exponent reaches the range.
-/

namespace MachinePolynomial

variable {numVars : ℕ} {vars : Fin numVars → Symbol}
variable {K : Type} [Field K] [DecidableEq K]

/-- `linear_factor`: the variable minus a point. -/
def linearFactor
    (varIndex : Fin numVars)
    (point : K) :
    MachinePolynomial vars K :=
  fromTerm (Monomial.single varIndex 1)
      (MultivariatePolynomial.fits_single (by decide)) 1 -
    constant point

/-- The inner loop of `lagrange_interpolate`: one basis polynomial and its value. -/
def lagrangeBasis
    (varIndex : Fin numVars)
    (points : List K)
    (position : ℕ)
    (point : K) :
    MachinePolynomial vars K × K :=
  points.zipIdx.foldl
    (fun (basis, denominator) (other, otherPosition) =>
      if otherPosition = position then
        (basis, denominator)
      else
        (basis * linearFactor varIndex other, denominator * (point - other)))
    (constant 1, 1)

/-- The body of the outer loop: a sample times its basis polynomial is added. -/
def addSample
    [FieldErrors K]
    (varIndex : Fin numVars)
    (points : List K)
    (result : MachinePolynomial vars K)
    (item : (K × MachinePolynomial vars K) × ℕ) :
    Except PolyError (MachinePolynomial vars K) := do
  let (basis, denominator) := lagrangeBasis varIndex points item.2 item.1.1
  let inverse ← fieldInv denominator
  .ok (result + item.1.2 * (basis * constant inverse))

/-- `lagrange_interpolate`, on points paired with their samples. -/
def lagrangeInterpolate
    [FieldErrors K]
    (varIndex : Fin numVars)
    (samples : List (K × MachinePolynomial vars K)) :
    Except PolyError (MachinePolynomial vars K) :=
  samples.zipIdx.foldlM (addSample varIndex (samples.map Prod.fst)) 0

/-- The entries of a list with their places, as a range. -/
theorem zipIdx_eq_map_range
    {α : Type}
    (items : List α)
    (default : α) :
    items.zipIdx =
      (List.range items.length).map (fun index => (items.getD index default, index)) := by
  apply List.ext_getElem
  · simp
  · intro index inBounds _
    have small : index < items.length := by simpa using inBounds
    simp [small]

theorem wrapped_fromTerm
    (monomial : Monomial numVars)
    (fits : monomial.Fits)
    (coefficient : K) :
    (fromTerm monomial fits coefficient : MachinePolynomial vars K).wrapped =
      wrap exponentModulus (MvPolynomial.monomial monomial.toFinsupp coefficient) :=
  congrArg (wrap exponentModulus)
    (MultivariatePolynomial.toMvPolynomial_fromTerm monomial coefficient)

theorem wrapped_constant
    (value : K) :
    (constant value : MachinePolynomial vars K).wrapped =
      wrap exponentModulus (C value) :=
  congrArg (wrap exponentModulus) (MultivariatePolynomial.toMvPolynomial_constant value)

theorem wrapped_linearFactor
    (varIndex : Fin numVars)
    (point : K) :
    (linearFactor varIndex point : MachinePolynomial vars K).wrapped =
      wrap exponentModulus (X varIndex - C point) := by
  rw [linearFactor, wrapped_sub, wrapped_fromTerm, wrapped_constant, ← map_sub,
    MultivariatePolynomial.toFinsupp_single]
  rfl

/-- The inner loop multiplies its start by the factors of the other places. -/
theorem foldl_lagrangeBasis
    (varIndex : Fin numVars)
    (position : ℕ)
    (point : K)
    (items : List (K × ℕ))
    (basis : MachinePolynomial vars K)
    (denominator : K) :
    let computed :=
      items.foldl
        (fun (basis, denominator) (other, otherPosition) =>
          if otherPosition = position then
            (basis, denominator)
          else
            (basis * linearFactor varIndex other, denominator * (point - other)))
        (basis, denominator)
    computed.1.wrapped =
        basis.wrapped *
          wrap exponentModulus
            (items.map
              (fun item => if item.2 ≠ position then X varIndex - C item.1 else 1)).prod ∧
      computed.2 =
        denominator *
          (items.map
            (fun item => if item.2 ≠ position then point - item.1 else 1)).prod := by
  induction items generalizing basis denominator with
  | nil =>
      simp
  | cons item rest inductionHypothesis =>
      by_cases same : item.2 = position
      · simpa [same] using inductionHypothesis basis denominator
      · obtain ⟨wrappedBasis, value⟩ :=
          inductionHypothesis (basis * linearFactor varIndex item.1)
            (denominator * (point - item.1))
        simp only [List.foldl_cons, List.map_cons, List.prod_cons, ne_eq, same,
          not_false_eq_true, if_true]
        refine ⟨wrappedBasis.trans ?_, value.trans (mul_assoc _ _ _)⟩
        rw [wrapped_mul, wrapped_linearFactor, map_mul, mul_assoc]

omit [DecidableEq K] in
/-- A product over the other places of a list. -/
theorem prod_zipIdx_of_ne
    {M : Type}
    [CommMonoid M]
    (points : List K)
    (position : ℕ)
    (factor : K → M) :
    (points.zipIdx.map
        (fun item => if item.2 ≠ position then factor item.1 else 1)).prod =
      ∏ other ∈ (Finset.range points.length).erase position,
        factor (points.getD other 0) := by
  rw [zipIdx_eq_map_range points 0, List.map_map, ← Finset.filter_ne', Finset.prod_filter]
  exact (Multiset.prod_coe _).symm

/-- The inner loop computes the basis polynomial's numerator and denominator. -/
theorem lagrangeBasis_computes
    (varIndex : Fin numVars)
    (points : List K)
    (position : ℕ)
    (point : K) :
    (lagrangeBasis varIndex points position point : MachinePolynomial vars K × K).1.wrapped =
        wrap exponentModulus
          (∏ other ∈ (Finset.range points.length).erase position,
            (X varIndex - C (points.getD other 0))) ∧
      (lagrangeBasis varIndex points position point : MachinePolynomial vars K × K).2 =
        ∏ other ∈ (Finset.range points.length).erase position,
          (point - points.getD other 0) := by
  obtain ⟨wrappedBasis, value⟩ :=
    foldl_lagrangeBasis varIndex position point points.zipIdx
      (constant 1 : MachinePolynomial vars K) 1
  rw [wrapped_one, one_mul,
    prod_zipIdx_of_ne points position (fun other => X varIndex - C other)] at wrappedBasis
  rw [one_mul, prod_zipIdx_of_ne points position (fun other => point - other)] at value
  exact ⟨wrappedBasis, value⟩

/-- The point at a place. -/
def pointAt
    (samples : List (K × MachinePolynomial vars K))
    (index : ℕ) :
    K :=
  (samples.getD index (0, 0)).1

/-- What the sample at a place denotes. -/
noncomputable def sampleAt
    (samples : List (K × MachinePolynomial vars K))
    (index : ℕ) :
    MvPolynomial (Fin numVars) K :=
  (samples.getD index (0, 0)).2.toMvPolynomial

omit [DecidableEq K] in
theorem getD_map_fst
    (samples : List (K × MachinePolynomial vars K))
    (index : ℕ) :
    (samples.map Prod.fst).getD index 0 = pointAt samples index :=
  List.getD_map samples (0, 0) Prod.fst

/-- The basis polynomial of an item, before it is scaled. -/
def basisOf
    (varIndex : Fin numVars)
    (points : List K)
    (item : (K × MachinePolynomial vars K) × ℕ) :
    MachinePolynomial vars K :=
  (lagrangeBasis varIndex points item.2 item.1.1).1

/-- The value of an item's basis polynomial at its own point. -/
def denominatorOf
    (varIndex : Fin numVars)
    (points : List K)
    (item : (K × MachinePolynomial vars K) × ℕ) :
    K :=
  (lagrangeBasis varIndex points item.2 item.1.1 : MachinePolynomial vars K × K).2

section Errors

variable [FieldErrors K]

theorem addSample_of_ne_zero
    {varIndex : Fin numVars}
    {points : List K}
    {item : (K × MachinePolynomial vars K) × ℕ}
    (invertible : denominatorOf varIndex points item ≠ 0)
    (result : MachinePolynomial vars K) :
    addSample varIndex points result item =
      .ok (result +
        item.1.2 *
          (basisOf varIndex points item * constant (denominatorOf varIndex points item)⁻¹)) := by
  simp [addSample, fieldInv, basisOf, denominatorOf] at invertible ⊢
  simp [invertible]

theorem addSample_of_eq_zero
    {varIndex : Fin numVars}
    {points : List K}
    {item : (K × MachinePolynomial vars K) × ℕ}
    (isZero : denominatorOf varIndex points item = 0)
    (result : MachinePolynomial vars K) :
    addSample varIndex points result item =
      .error (.domainError (FieldErrors.inverseOfZero K)) := by
  simp [addSample, fieldInv, denominatorOf] at isZero ⊢
  simp [isZero]

/-- With nonzero denominators the outer loop adds all samples. -/
theorem foldlM_addSample
    {varIndex : Fin numVars}
    {points : List K}
    {items : List ((K × MachinePolynomial vars K) × ℕ)}
    (invertible : ∀ item ∈ items, denominatorOf varIndex points item ≠ 0)
    (start : MachinePolynomial vars K) :
    ∃ result,
      items.foldlM (addSample varIndex points) start = .ok result ∧
      result.wrapped =
        start.wrapped +
          (items.map (fun item =>
            item.1.2.wrapped *
              ((basisOf varIndex points item).wrapped *
                wrap exponentModulus (C (denominatorOf varIndex points item)⁻¹)))).sum := by
  induction items generalizing start with
  | nil =>
      exact ⟨start, rfl, by simp⟩
  | cons item rest inductionHypothesis =>
      obtain ⟨result, returned, value⟩ :=
        inductionHypothesis (fun other member => invertible other (by simp [member]))
          (start + item.1.2 *
            (basisOf varIndex points item *
              constant (denominatorOf varIndex points item)⁻¹))
      refine ⟨result, ?_, ?_⟩
      · rw [List.foldlM_cons, addSample_of_ne_zero (invertible item (by simp))]
        exact returned
      · rw [value, List.map_cons, List.sum_cons, wrapped_add, wrapped_mul, wrapped_mul,
          wrapped_constant, add_assoc]

/-- A zero denominator ends the outer loop with the field's error. -/
theorem foldlM_addSample_error
    {varIndex : Fin numVars}
    {points : List K}
    {items : List ((K × MachinePolynomial vars K) × ℕ)}
    (someZero : ∃ item ∈ items, denominatorOf varIndex points item = 0)
    (start : MachinePolynomial vars K) :
    items.foldlM (addSample varIndex points) start =
      .error (.domainError (FieldErrors.inverseOfZero K)) := by
  induction items generalizing start with
  | nil =>
      obtain ⟨item, member, _⟩ := someZero
      cases member
  | cons item rest inductionHypothesis =>
      by_cases isZero : denominatorOf varIndex points item = 0
      · rw [List.foldlM_cons, addSample_of_eq_zero isZero]
        rfl
      · rw [List.foldlM_cons, addSample_of_ne_zero isZero]
        apply inductionHypothesis
        obtain ⟨zeroItem, member, zero⟩ := someZero
        rcases List.mem_cons.mp member with isItem | inRest
        · exact absurd (isItem ▸ zero) isZero
        · exact ⟨zeroItem, inRest, zero⟩

end Errors

/-- The entry at a place of the list, with the place. -/
def itemAt
    (samples : List (K × MachinePolynomial vars K))
    (index : ℕ) :
    (K × MachinePolynomial vars K) × ℕ :=
  (samples.getD index (0, 0), index)

omit [DecidableEq K] in
theorem zipIdx_eq_map_itemAt
    (samples : List (K × MachinePolynomial vars K)) :
    samples.zipIdx = (List.range samples.length).map (itemAt samples) :=
  zipIdx_eq_map_range samples (0, 0)

/-- The denominator at a place multiplies the differences of the points. -/
theorem denominatorOf_itemAt
    (varIndex : Fin numVars)
    (samples : List (K × MachinePolynomial vars K))
    (index : ℕ) :
    denominatorOf varIndex (samples.map Prod.fst) (itemAt samples index) =
      ∏ other ∈ (Finset.range samples.length).erase index,
        (pointAt samples index - pointAt samples other) := by
  refine (lagrangeBasis_computes varIndex (samples.map Prod.fst) index _).2.trans ?_
  rw [List.length_map]
  exact Finset.prod_congr rfl (fun other _ => by rw [getD_map_fst]; rfl)

/-- The basis polynomial at a place multiplies the factors of the other points. -/
theorem wrapped_basisOf_itemAt
    (varIndex : Fin numVars)
    (samples : List (K × MachinePolynomial vars K))
    (index : ℕ) :
    (basisOf varIndex (samples.map Prod.fst) (itemAt samples index)).wrapped =
      wrap exponentModulus
        (∏ other ∈ (Finset.range samples.length).erase index,
          (X varIndex - C (pointAt samples other))) := by
  refine (lagrangeBasis_computes varIndex (samples.map Prod.fst) index _).1.trans ?_
  rw [List.length_map]
  refine congrArg (wrap exponentModulus) ?_
  exact Finset.prod_congr rfl (fun other _ => by rw [getD_map_fst])

omit [DecidableEq K] in
/-- The points of a list are distinct when they are so at its places. -/
theorem nodup_iff_injOn
    {samples : List (K × MachinePolynomial vars K)} :
    (samples.map Prod.fst).Nodup ↔
      Set.InjOn (pointAt samples) (Finset.range samples.length : Finset ℕ) := by
  have places : samples.map Prod.fst = (List.range samples.length).map (pointAt samples) := by
    apply List.ext_getElem
    · simp
    · intro index inBounds _
      have small : index < samples.length := by simpa using inBounds
      simp [pointAt, small]
  rw [places, List.nodup_map_iff_inj_on List.nodup_range]
  simp only [List.mem_range, Set.InjOn, Finset.coe_range, Set.mem_Iio]

/-- The denominator at a place is zero when another place has the same point. -/
theorem denominatorOf_itemAt_eq_zero_iff
    {varIndex : Fin numVars}
    {samples : List (K × MachinePolynomial vars K)}
    {index : ℕ} :
    denominatorOf varIndex (samples.map Prod.fst) (itemAt samples index) = 0 ↔
      ∃ other < samples.length,
        other ≠ index ∧ pointAt samples index = pointAt samples other := by
  rw [denominatorOf_itemAt, Finset.prod_eq_zero_iff]
  simp only [Finset.mem_erase, Finset.mem_range, sub_eq_zero]
  constructor
  · rintro ⟨other, ⟨differ, small⟩, same⟩
    exact ⟨other, small, differ, same⟩
  · rintro ⟨other, small, differ, same⟩
    exact ⟨other, ⟨differ, small⟩, same⟩

/-- Every denominator is invertible exactly when the points are distinct. -/
theorem nodup_iff_denominatorOf_ne_zero
    {varIndex : Fin numVars}
    {samples : List (K × MachinePolynomial vars K)} :
    (samples.map Prod.fst).Nodup ↔
      ∀ item ∈ samples.zipIdx, denominatorOf varIndex (samples.map Prod.fst) item ≠ 0 := by
  rw [nodup_iff_injOn, zipIdx_eq_map_itemAt, List.forall_mem_map]
  simp only [List.mem_range, ne_eq, denominatorOf_itemAt_eq_zero_iff]
  constructor
  · rintro injective index small ⟨other, otherSmall, differ, same⟩
    exact differ
      (injective (Finset.mem_range.mpr otherSmall) (Finset.mem_range.mpr small) same.symm)
  · intro invertible first firstMember second secondMember same
    by_contra differ
    exact invertible first (Finset.mem_range.mp firstMember)
      ⟨second, Finset.mem_range.mp secondMember, Ne.symm differ, same⟩

/-- The polynomial is the interpolant of the samples, with its exponents wrapped. -/
def IsInterpolant
    (varIndex : Fin numVars)
    (samples : List (K × MachinePolynomial vars K))
    (result : MachinePolynomial vars K) :
    Prop :=
  result.wrapped =
    wrap exponentModulus
      (interpolant varIndex (Finset.range samples.length) (pointAt samples)
        (sampleAt samples))

/-- Distinct points are interpolated, up to the wrapping of exponents. -/
theorem lagrangeInterpolate_of_nodup
    [FieldErrors K]
    (varIndex : Fin numVars)
    {samples : List (K × MachinePolynomial vars K)}
    (distinct : (samples.map Prod.fst).Nodup) :
    ∃ result,
      lagrangeInterpolate varIndex samples = .ok result ∧
      result.IsInterpolant varIndex samples := by
  have places
      (index : ℕ) :
      (itemAt samples index).1.2.wrapped *
          ((basisOf varIndex (samples.map Prod.fst) (itemAt samples index)).wrapped *
            wrap exponentModulus
              (C (denominatorOf varIndex (samples.map Prod.fst)
                (itemAt samples index))⁻¹)) =
        wrap exponentModulus
          (sampleAt samples index *
            Polynomial.aeval (X varIndex)
              (Lagrange.basis (Finset.range samples.length) (pointAt samples) index)) := by
    rw [wrapped_basisOf_itemAt, denominatorOf_itemAt, ← map_mul,
      Interpolation.aeval_basis, map_mul]
    rfl
  obtain ⟨result, returned, value⟩ :=
    foldlM_addSample (nodup_iff_denominatorOf_ne_zero.mp distinct) 0
  refine ⟨result, returned, value.trans ?_⟩
  rw [wrapped_zero, zero_add, zipIdx_eq_map_itemAt, List.map_map, interpolant, map_sum,
    ← Finset.sum_congr rfl (fun index _ => places index)]
  exact (Multiset.sum_coe _).symm

/-- Points that coincide end the interpolation with the field's error. -/
theorem lagrangeInterpolate_of_not_nodup
    [FieldErrors K]
    {varIndex : Fin numVars}
    {samples : List (K × MachinePolynomial vars K)}
    (coincide : ¬(samples.map Prod.fst).Nodup) :
    lagrangeInterpolate varIndex samples =
      .error (.domainError (FieldErrors.inverseOfZero K)) := by
  apply foldlM_addSample_error
  rw [@nodup_iff_denominatorOf_ne_zero _ _ _ _ _ varIndex] at coincide
  push Not at coincide
  exact coincide

/-- The variable does not occur. -/
def FreeOf
    (varIndex : Fin numVars)
    (poly : MachinePolynomial vars K) :
    Prop :=
  ∀ term ∈ poly.terms, term.1.exponent varIndex = 0

/-- Every exponent of the variable is below the bound. -/
def DegreeBelow
    (varIndex : Fin numVars)
    (bound : ℕ)
    (poly : MachinePolynomial vars K) :
    Prop :=
  ∀ term ∈ poly.terms, term.1.exponent varIndex < bound

/-- `evaluate` at each point is the sample there. -/
def TakesSamples
    (varIndex : Fin numVars)
    (samples : List (K × MachinePolynomial vars K))
    (poly : MachinePolynomial vars K) :
    Prop :=
  ∀ sample ∈ samples, poly.evaluate varIndex sample.1 = sample.2

omit [DecidableEq K] in
theorem degreeBelow_iff
    {varIndex : Fin numVars}
    {bound : ℕ}
    {poly : MachinePolynomial vars K} :
    poly.DegreeBelow varIndex bound ↔
      Interpolation.DegreeBelow varIndex bound poly.toMvPolynomial := by
  constructor
  · intro below exponents occurs
    obtain ⟨monomial, rfl⟩ := Monomial.exists_toFinsupp_eq exponents
    obtain ⟨term, member, same⟩ := MultivariatePolynomial.exists_of_coeff_ne_zero occurs
    exact same ▸ below term member
  · intro below term member
    refine below term.1.toFinsupp ?_
    rw [MultivariatePolynomial.coeff_of_mem member]
    exact poly.nonzero term member

omit [DecidableEq K] in
theorem degreeBelow_exponentModulus
    (varIndex : Fin numVars)
    (poly : MachinePolynomial vars K) :
    poly.DegreeBelow varIndex exponentModulus :=
  fun term member => poly.fits term member varIndex

omit [DecidableEq K] in
theorem FreeOf.degreeOf_eq_zero
    {varIndex : Fin numVars}
    {poly : MachinePolynomial vars K}
    (free : poly.FreeOf varIndex) :
    poly.toMvPolynomial.degreeOf varIndex = 0 := by
  have below : poly.DegreeBelow varIndex 1 :=
    fun term member => Nat.lt_one_iff.mpr (free term member)
  exact Nat.lt_one_iff.mp
    ((Interpolation.degreeBelow_iff Nat.one_pos).mp (degreeBelow_iff.mp below))

omit [DecidableEq K] in
/-- A value for a variable that does not occur changes nothing. -/
theorem FreeOf.substitute_eq
    {varIndex : Fin numVars}
    {poly : MachinePolynomial vars K}
    (free : poly.FreeOf varIndex)
    (value : K) :
    MultivariatePolynomial.substitute varIndex value poly.toMvPolynomial =
      poly.toMvPolynomial := by
  have unchanged
      {terms : List (Term numVars K)}
      (termsFree : ∀ term ∈ terms, term.1.exponent varIndex = 0) :
      MultivariatePolynomial.substitute varIndex value
          (MultivariatePolynomial.termsValue terms) =
        MultivariatePolynomial.termsValue terms := by
    induction terms with
    | nil =>
        simp
    | cons term rest inductionHypothesis =>
        have isZero := termsFree term (by simp)
        have frozen : term.1.freeze varIndex = term.1 := by
          ext index
          by_cases same : index = varIndex
          · simp [Monomial.freeze, same, isZero]
          · simp [Monomial.freeze, same]
        rw [MultivariatePolynomial.termsValue_cons, map_add,
          MultivariatePolynomial.substitute_monomial, frozen, isZero, pow_zero, mul_one,
          inductionHypothesis (fun other member => termsFree other (by simp [member]))]
  exact unchanged free

omit [DecidableEq K] in
/-- Substitution evaluates the isolated polynomial. -/
theorem substitute_eq_eval
    (varIndex : Fin numVars)
    (value : K)
    (poly : MvPolynomial (Fin numVars) K) :
    MultivariatePolynomial.substitute varIndex value poly =
      (Interpolation.isolate varIndex poly).eval (C value) :=
  (Interpolation.eval_isolate (C value) poly).symm

/-- A polynomial takes the samples when it has their values at all places. -/
theorem takesSamples_iff
    {varIndex : Fin numVars}
    {samples : List (K × MachinePolynomial vars K)}
    {poly : MachinePolynomial vars K} :
    poly.TakesSamples varIndex samples ↔
      ∀ index ∈ Finset.range samples.length,
        MultivariatePolynomial.substitute varIndex (pointAt samples index)
            poly.toMvPolynomial =
          sampleAt samples index := by
  have denotes
      (sample : K × MachinePolynomial vars K) :
      poly.evaluate varIndex sample.1 = sample.2 ↔
        MultivariatePolynomial.substitute varIndex sample.1 poly.toMvPolynomial =
          sample.2.toMvPolynomial := by
    rw [← MultivariatePolynomial.toMvPolynomial_evaluate]
    constructor
    · intro same
      rw [← same]
      rfl
    · intro same
      exact ext_polynomial (MultivariatePolynomial.toMvPolynomial_injective same)
  simp only [TakesSamples, denotes, Finset.mem_range]
  rw [List.forall_mem_iff_getElem]
  refine forall_congr' (fun index => forall_congr' (fun small => ?_))
  simp [pointAt, sampleAt, small]

section Free

variable {varIndex : Fin numVars} {samples : List (K × MachinePolynomial vars K)}

omit [DecidableEq K] in
theorem freeOf_getD
    (free : ∀ sample ∈ samples, sample.2.FreeOf varIndex)
    {index : ℕ}
    (member : index ∈ Finset.range samples.length) :
    (samples.getD index (0, 0)).2.FreeOf varIndex := by
  have small := Finset.mem_range.mp member
  rw [List.getD_eq_getElem samples _ small]
  exact free _ (List.getElem_mem small)

omit [DecidableEq K] in
/-- The interpolant has the samples as its values. -/
theorem substitute_interpolant
    (free : ∀ sample ∈ samples, sample.2.FreeOf varIndex)
    (distinct : (samples.map Prod.fst).Nodup)
    {index : ℕ}
    (member : index ∈ Finset.range samples.length) :
    MultivariatePolynomial.substitute varIndex (pointAt samples index)
        (interpolant varIndex (Finset.range samples.length) (pointAt samples)
          (sampleAt samples)) =
      sampleAt samples index := by
  apply Interpolation.map_interpolant (nodup_iff_injOn.mp distinct) member
  · simp [MultivariatePolynomial.substitute]
  · intro other otherMember
    exact (freeOf_getD free otherMember).substitute_eq _

omit [DecidableEq K] in
theorem degreeBelow_interpolant
    (free : ∀ sample ∈ samples, sample.2.FreeOf varIndex)
    (distinct : (samples.map Prod.fst).Nodup) :
    Interpolation.DegreeBelow varIndex samples.length
      (interpolant varIndex (Finset.range samples.length) (pointAt samples)
        (sampleAt samples)) := by
  have below :=
    Interpolation.degreeBelow_interpolant (nodup_iff_injOn.mp distinct)
      (fun index member => (freeOf_getD free member).degreeOf_eq_zero)
  rwa [Finset.card_range] at below

omit [DecidableEq K] in
/-- Up to `2^32` points the interpolant is a polynomial of the source. -/
theorem below_interpolant
    (free : ∀ sample ∈ samples, sample.2.FreeOf varIndex)
    (distinct : (samples.map Prod.fst).Nodup)
    (inRange : samples.length ≤ exponentModulus) :
    WrappedExponents.Below exponentModulus
      (interpolant varIndex (Finset.range samples.length) (pointAt samples)
        (sampleAt samples)) := by
  have positive : 0 < exponentModulus := Nat.two_pow_pos 32
  rw [WrappedExponents.below_iff_degreeOf positive]
  intro index
  by_cases isMain : index = varIndex
  · rw [isMain, ← Interpolation.degreeBelow_iff positive]
    intro exponents occurs
    exact lt_of_lt_of_le (degreeBelow_interpolant free distinct exponents occurs) inRange
  · refine lt_of_le_of_lt (Interpolation.degreeOf_interpolant_le isMain) ?_
    rw [Finset.sup_lt_iff positive]
    intro place _
    exact (WrappedExponents.below_iff_degreeOf positive).mp
      (samples.getD place (0, 0)).2.fits.below index

/-- A polynomial of low degree that takes the samples denotes the interpolant. -/
theorem toMvPolynomial_eq_interpolant
    (free : ∀ sample ∈ samples, sample.2.FreeOf varIndex)
    (distinct : (samples.map Prod.fst).Nodup)
    {poly : MachinePolynomial vars K}
    (below : poly.DegreeBelow varIndex samples.length)
    (takes : poly.TakesSamples varIndex samples) :
    poly.toMvPolynomial =
      interpolant varIndex (Finset.range samples.length) (pointAt samples)
        (sampleAt samples) := by
  apply Interpolation.eq_of_isolate_values (nodup_iff_injOn.mp distinct)
  · rw [Finset.card_range]
    exact degreeBelow_iff.mp below
  · rw [Finset.card_range]
    exact degreeBelow_interpolant free distinct
  · intro index member
    rw [← substitute_eq_eval, ← substitute_eq_eval, substitute_interpolant free distinct member]
    exact takesSamples_iff.mp takes index member

omit [DecidableEq K] in
/-- Up to `2^32` points the interpolant itself is returned. -/
theorem eq_interpolant_of_isInterpolant
    (free : ∀ sample ∈ samples, sample.2.FreeOf varIndex)
    (distinct : (samples.map Prod.fst).Nodup)
    (inRange : samples.length ≤ exponentModulus)
    {result : MachinePolynomial vars K}
    (interpolates : result.IsInterpolant varIndex samples) :
    result.toMvPolynomial =
      interpolant varIndex (Finset.range samples.length) (pointAt samples)
        (sampleAt samples) :=
  WrappedExponents.eq_of_wrap_eq result.fits.below
    (below_interpolant free distinct inRange) interpolates

omit [DecidableEq K] in
/-- The returned polynomial has a degree below the number of points. -/
theorem degreeBelow_of_isInterpolant
    (free : ∀ sample ∈ samples, sample.2.FreeOf varIndex)
    (distinct : (samples.map Prod.fst).Nodup)
    {result : MachinePolynomial vars K}
    (interpolates : result.IsInterpolant varIndex samples) :
    result.DegreeBelow varIndex samples.length := by
  by_cases inRange : samples.length ≤ exponentModulus
  · rw [degreeBelow_iff, eq_interpolant_of_isInterpolant free distinct inRange interpolates]
    exact degreeBelow_interpolant free distinct
  · intro term member
    exact (degreeBelow_exponentModulus varIndex result term member).trans
      (Nat.lt_of_not_le inRange)

/-- Up to `2^32` points the returned polynomial takes the samples. -/
theorem takesSamples_of_isInterpolant
    (free : ∀ sample ∈ samples, sample.2.FreeOf varIndex)
    (distinct : (samples.map Prod.fst).Nodup)
    (inRange : samples.length ≤ exponentModulus)
    {result : MachinePolynomial vars K}
    (interpolates : result.IsInterpolant varIndex samples) :
    result.TakesSamples varIndex samples := by
  rw [takesSamples_iff, eq_interpolant_of_isInterpolant free distinct inRange interpolates]
  exact fun index member => substitute_interpolant free distinct member

/-- Only the returned polynomial can take the samples. -/
theorem eq_of_takesSamples
    (free : ∀ sample ∈ samples, sample.2.FreeOf varIndex)
    (distinct : (samples.map Prod.fst).Nodup)
    {result poly : MachinePolynomial vars K}
    (interpolates : result.IsInterpolant varIndex samples)
    (below : poly.DegreeBelow varIndex samples.length)
    (takes : poly.TakesSamples varIndex samples) :
    poly = result := by
  apply wrapped_injective
  rw [interpolates, ← toMvPolynomial_eq_interpolant free distinct below takes]
  rfl

end Free

/--
`lagrange_interpolate` with samples in which the variable does not occur.  At distinct
points it returns the only polynomial of degree below their number that can take the
samples.  It takes them if any polynomial with 32-bit exponents does, which is so up
to `2^32` points.  Where two points coincide it throws the field's error.
-/
theorem lagrangeInterpolate_interpolates
    [FieldErrors K]
    (varIndex : Fin numVars)
    (samples : List (K × MachinePolynomial vars K))
    (free : ∀ sample ∈ samples, sample.2.FreeOf varIndex) :
    ((samples.map Prod.fst).Nodup →
      ∃ result,
        lagrangeInterpolate varIndex samples = .ok result ∧
        result.DegreeBelow varIndex samples.length ∧
        (∀ poly : MachinePolynomial vars K,
          poly.DegreeBelow varIndex samples.length →
          poly.TakesSamples varIndex samples →
          poly = result) ∧
        ((∃ poly : MachinePolynomial vars K, poly.TakesSamples varIndex samples) →
          result.TakesSamples varIndex samples) ∧
        (samples.length ≤ exponentModulus → result.TakesSamples varIndex samples)) ∧
      (¬(samples.map Prod.fst).Nodup →
        lagrangeInterpolate varIndex samples =
          .error (.domainError (FieldErrors.inverseOfZero K))) := by
  refine ⟨fun distinct => ?_, lagrangeInterpolate_of_not_nodup⟩
  obtain ⟨result, returned, interpolates⟩ := lagrangeInterpolate_of_nodup varIndex distinct
  have unique
      (poly : MachinePolynomial vars K)
      (below : poly.DegreeBelow varIndex samples.length)
      (takes : poly.TakesSamples varIndex samples) :
      poly = result :=
    eq_of_takesSamples free distinct interpolates below takes
  refine ⟨result, returned, degreeBelow_of_isInterpolant free distinct interpolates, unique, ?_,
    fun inRange => takesSamples_of_isInterpolant free distinct inRange interpolates⟩
  rintro ⟨poly, takes⟩
  by_cases inRange : samples.length ≤ exponentModulus
  · exact takesSamples_of_isInterpolant free distinct inRange interpolates
  · have below : poly.DegreeBelow varIndex samples.length := by
      intro term member
      exact (degreeBelow_exponentModulus varIndex poly term member).trans
        (Nat.lt_of_not_le inRange)
    exact unique poly below takes ▸ takes

theorem freeOf_fromTerm
    {varIndex : Fin numVars}
    {monomial : Monomial numVars}
    (free : monomial.exponent varIndex = 0)
    (fits : monomial.Fits)
    (coefficient : K) :
    (fromTerm monomial fits coefficient : MachinePolynomial vars K).FreeOf varIndex := by
  intro term member
  simp only [fromTerm, MultivariatePolynomial.fromTerm] at member
  split at member
  · cases member
  · rw [List.mem_singleton.mp member]
    exact free

theorem fits_second : (Monomial.single (Fin.last 1) 1).Fits :=
  MultivariatePolynomial.fits_single (by decide)

/-- The second of two variables. -/
def secondVariable : MachinePolynomial (fun index : Fin 2 => (⟨index.val⟩ : Symbol)) ℚ :=
  fromTerm (Monomial.single (Fin.last 1) 1) fits_second 1

/-- The second variable at zero and one at one are interpolated in the first. -/
theorem lagrangeInterpolate_interpolates_secondVariable :
    ∃ result,
      lagrangeInterpolate 0 [(0, secondVariable), (1, constant 1)] = .ok result ∧
      result.TakesSamples 0 [(0, secondVariable), (1, constant 1)] := by
  have free :
      ∀ sample ∈ [((0 : ℚ), secondVariable), (1, constant 1)], sample.2.FreeOf 0 := by
    intro sample member
    rcases List.mem_pair.mp member with rfl | rfl
    · exact freeOf_fromTerm rfl fits_second _
    · exact freeOf_fromTerm rfl Monomial.fits_one _
  obtain ⟨result, returned, _, _, _, takes⟩ :=
    (lagrangeInterpolate_interpolates 0 _ free).1 (by simp)
  exact ⟨result, returned, takes (by decide)⟩

/-- The polynomial is the one with unbounded exponents, wrapped. -/
def Wraps
    (machine : MachinePolynomial vars K)
    (exact : MultivariatePolynomial vars K) :
    Prop :=
  machine.wrapped = wrap exponentModulus exact.toMvPolynomial

/-- With unbounded exponents the inner loop computes what is wrapped here. -/
theorem foldl_lagrangeBasis_wraps
    (varIndex : Fin numVars)
    (position : ℕ)
    (point : K)
    (items : List (K × ℕ))
    {basis : MachinePolynomial vars K}
    {exactBasis : MultivariatePolynomial vars K}
    (wraps : Wraps basis exactBasis)
    (denominator : K) :
    let machine :=
      items.foldl
        (fun (basis, denominator) (other, otherPosition) =>
          if otherPosition = position then
            (basis, denominator)
          else
            (basis * linearFactor varIndex other, denominator * (point - other)))
        (basis, denominator)
    let exact :=
      items.foldl
        (fun (basis, denominator) (other, otherPosition) =>
          if otherPosition = position then
            (basis, denominator)
          else
            (basis *
                (MultivariatePolynomial.fromTerm (Monomial.single varIndex 1) 1 -
                  MultivariatePolynomial.constant other),
              denominator * (point - other)))
        (exactBasis, denominator)
    Wraps machine.1 exact.1 ∧ machine.2 = exact.2 := by
  induction items generalizing basis exactBasis denominator with
  | nil =>
      exact ⟨wraps, rfl⟩
  | cons item rest inductionHypothesis =>
      by_cases same : item.2 = position
      · simpa [same] using inductionHypothesis wraps denominator
      · simp only [List.foldl_cons, same, if_false]
        refine inductionHypothesis ?_ _
        rw [Wraps, wrapped_mul, wraps, MultivariatePolynomial.toMvPolynomial_mul, map_mul]
        rfl

/-- The body of the outer loop computes what is wrapped here, or throws the same. -/
theorem addSample_related
    [FieldErrors K]
    (varIndex : Fin numVars)
    (points : List K)
    {result : MachinePolynomial vars K}
    {exactResult : MultivariatePolynomial vars K}
    (wraps : Wraps result exactResult)
    (item : (K × MachinePolynomial vars K) × ℕ) :
    Related Wraps (addSample varIndex points result item)
      (do
        let (basis, denominator) :=
          MultivariatePolynomial.lagrangeBasis varIndex points item.2 item.1.1
        let inverse ← fieldInv denominator
        .ok (exactResult +
          item.1.2.toMultivariatePolynomial *
            (basis * MultivariatePolynomial.constant inverse))) := by
  obtain ⟨basisWraps, sameDenominator⟩ :=
    @foldl_lagrangeBasis_wraps _ vars _ _ _ varIndex item.2 item.1.1 points.zipIdx (constant 1)
      (MultivariatePolynomial.constant 1) rfl 1
  simp only [addSample, lagrangeBasis, MultivariatePolynomial.lagrangeBasis]
  rw [sameDenominator]
  cases (fieldInv _ : Except PolyError K) with
  | error error =>
      exact .error error
  | ok inverse =>
      refine .ok ?_
      rw [Wraps, wrapped_add, wrapped_mul, wrapped_mul, wraps, basisWraps,
        MultivariatePolynomial.toMvPolynomial_add, MultivariatePolynomial.toMvPolynomial_mul,
        MultivariatePolynomial.toMvPolynomial_mul, map_add, map_mul, map_mul]
      rfl

/--
With 32-bit exponents `lagrange_interpolate` returns the wrapping of what it returns with
unbounded ones, and throws what it throws there.
-/
theorem lagrangeInterpolate_wraps
    [FieldErrors K]
    (varIndex : Fin numVars)
    (samples : List (K × MachinePolynomial vars K)) :
    Related Wraps (lagrangeInterpolate varIndex samples)
      (MultivariatePolynomial.lagrangeInterpolate varIndex
        (samples.map fun sample => (sample.1, sample.2.toMultivariatePolynomial))) := by
  rw [lagrangeInterpolate, MultivariatePolynomial.lagrangeInterpolate, List.zipIdx_map,
    List.foldlM_map, List.map_map]
  refine related_foldlM (fun result exactResult item wraps => ?_) samples.zipIdx ?_
  · exact addSample_related varIndex (samples.map Prod.fst) wraps item
  · rfl

/-- Where no exponent reaches `2^32` the polynomials are the same. -/
theorem lagrangeInterpolate_of_fits
    [FieldErrors K]
    {varIndex : Fin numVars}
    {samples : List (K × MachinePolynomial vars K)}
    {exact : MultivariatePolynomial vars K}
    (returned :
      MultivariatePolynomial.lagrangeInterpolate varIndex
          (samples.map fun sample => (sample.1, sample.2.toMultivariatePolynomial)) =
        .ok exact)
    (fits : exact.Fits) :
    lagrangeInterpolate varIndex samples = .ok ⟨exact, fits⟩ := by
  have related := lagrangeInterpolate_wraps varIndex samples
  rw [returned] at related
  obtain ⟨result, machineReturned, wraps⟩ := related.of_ok
  rw [machineReturned]
  exact congrArg Except.ok (wrapped_injective wraps)

section Powers

variable {prime : ℕ} [Fact prime.Prime]

/-- The first points of a prime field with the values of a power there. -/
def powerSamples
    (prime : ℕ)
    [Fact prime.Prime]
    (vars : Fin 1 → Symbol)
    (count exponent : ℕ) :
    List (ZMod prime × MachinePolynomial vars (ZMod prime)) :=
  (List.range count).map
    (fun index : ℕ => ((index : ZMod prime), constant ((index : ZMod prime) ^ exponent)))

theorem freeOf_powerSamples
    {vars : Fin 1 → Symbol}
    {count exponent : ℕ} :
    ∀ sample ∈ powerSamples prime vars count exponent, sample.2.FreeOf 0 := by
  intro sample member
  obtain ⟨index, _, rfl⟩ := List.mem_map.mp member
  exact freeOf_fromTerm rfl Monomial.fits_one _

theorem nodup_powerSamples
    (vars : Fin 1 → Symbol)
    (exponent : ℕ)
    {count : ℕ}
    (few : count ≤ prime) :
    ((powerSamples prime vars count exponent).map Prod.fst).Nodup := by
  rw [powerSamples, List.map_map, List.nodup_map_iff_inj_on List.nodup_range]
  intro first firstMember second secondMember same
  have firstSmall := (List.mem_range.mp firstMember).trans_le few
  have secondSmall := (List.mem_range.mp secondMember).trans_le few
  have congruent := (ZMod.natCast_eq_natCast_iff' _ _ prime).mp same
  rwa [Nat.mod_eq_of_lt firstSmall, Nat.mod_eq_of_lt secondSmall] at congruent

/-- Each sample is the power of its point. -/
theorem sampleAt_powerSamples
    {vars : Fin 1 → Symbol}
    {count exponent index : ℕ}
    (member :
      index ∈ Finset.range (powerSamples prime vars count exponent).length) :
    sampleAt (powerSamples prime vars count exponent) index =
      C (pointAt (powerSamples prime vars count exponent) index ^ exponent) := by
  have small := Finset.mem_range.mp member
  rw [sampleAt, pointAt, List.getD_eq_getElem _ _ small]
  obtain ⟨point, _, same⟩ := List.mem_map.mp (List.getElem_mem small)
  rw [← same]
  exact MultivariatePolynomial.toMvPolynomial_constant _

/-- No polynomial takes the values of a power out of range at enough points. -/
theorem not_takesSamples_powerSamples
    {vars : Fin 1 → Symbol}
    {count exponent : ℕ}
    (few : count ≤ prime)
    (enough : exponent < count)
    (outOfRange : exponentModulus ≤ exponent)
    (poly : MachinePolynomial vars (ZMod prime)) :
    ¬poly.TakesSamples 0 (powerSamples prime vars count exponent) := by
  intro takes
  have length : (powerSamples prime vars count exponent).length = count := by
    simp [powerSamples]
  have isPower : poly.toMvPolynomial = X 0 ^ exponent := by
    apply Interpolation.eq_of_isolate_values
      (nodup_iff_injOn.mp (nodup_powerSamples vars exponent few))
    · rw [Finset.card_range, length, ← degreeBelow_iff]
      intro term member
      exact (degreeBelow_exponentModulus 0 poly term member).trans
        (lt_of_le_of_lt outOfRange enough)
    · rw [Finset.card_range, length]
      intro exponents occurs
      rw [MvPolynomial.coeff_X_pow] at occurs
      split_ifs at occurs with same
      · simpa [← same] using enough
      · exact absurd rfl occurs
    · intro index member
      rw [← substitute_eq_eval, ← substitute_eq_eval, takesSamples_iff.mp takes index member,
        sampleAt_powerSamples member]
      simp [MultivariatePolynomial.substitute]
  have occurs : poly.toMvPolynomial.coeff (Finsupp.single 0 exponent) ≠ 0 := by
    rw [isPower, MvPolynomial.coeff_X_pow, if_pos rfl]
    exact one_ne_zero
  have inRange := poly.fits.below _ occurs 0
  rw [Finsupp.single_eq_same] at inRange
  exact absurd outOfRange (Nat.not_le_of_lt inRange)

end Powers

/--
Modulo `18 * 2^32 + 1` the values of `x^(2^32)` at `2^32 + 1` distinct points are not
the values of what is returned.
-/
theorem lagrangeInterpolate_tooManyPoints :
    (∀ sample ∈ powerSamples 77309411329 (fun _ => ⟨0⟩) 4294967297 4294967296,
      sample.2.FreeOf 0) ∧
    ((powerSamples 77309411329 (fun _ => ⟨0⟩) 4294967297 4294967296).map Prod.fst).Nodup ∧
    ∃ result,
      lagrangeInterpolate 0
          (powerSamples 77309411329 (fun _ => ⟨0⟩) 4294967297 4294967296) =
        .ok result ∧
      ¬result.TakesSamples 0
        (powerSamples 77309411329 (fun _ => ⟨0⟩) 4294967297 4294967296) := by
  have distinct :=
    nodup_powerSamples (fun _ => ⟨0⟩) 4294967296
      (show 4294967297 ≤ 77309411329 by norm_num)
  obtain ⟨result, returned, _⟩ := lagrangeInterpolate_of_nodup 0 distinct
  refine ⟨freeOf_powerSamples, distinct, result, returned, ?_⟩
  exact not_takesSamples_powerSamples (by norm_num) (by norm_num)
    (by norm_num [exponentModulus]) result

end MachinePolynomial

end PolyCore
