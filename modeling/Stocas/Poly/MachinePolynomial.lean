import Stocas.Library.WrappedExponents
import Stocas.Poly.Denotation

namespace PolyCore

open SymbolTable (Symbol)
open WrappedExponents (Below wrap wrap_monomial_congr)

/-!
# Polynomials with 32-bit exponents

`Exponent` is `std::uint32_t`, and only the product of two monomials adds exponents.
Here that addition wraps.  Every other operation is the one on natural numbers and
keeps exponents in their range.
-/

/-- The number of values of `Exponent`. -/
def exponentModulus : ℕ :=
  2 ^ 32

namespace Monomial

variable {numVars : ℕ}

/-- Every exponent is a value of `Exponent`. -/
def Fits (monomial : Monomial numVars) : Prop :=
  ∀ index, monomial.exponent index < exponentModulus

instance (monomial : Monomial numVars) : Decidable monomial.Fits :=
  inferInstanceAs (Decidable (∀ index, monomial.exponent index < exponentModulus))

/-- `operator*` on 32-bit exponents. -/
def wrappedMul
    (left right : Monomial numVars) :
    Monomial numVars :=
  ⟨fun index => (left.exponent index + right.exponent index) % exponentModulus⟩

theorem fits_one : (1 : Monomial numVars).Fits :=
  fun _ => Nat.two_pow_pos 32

theorem fits_wrappedMul
    (left right : Monomial numVars) :
    (left.wrappedMul right).Fits :=
  fun _ => Nat.mod_lt _ (Nat.two_pow_pos 32)

/-- Sums below the modulus are not wrapped. -/
theorem wrappedMul_eq_mul
    {left right : Monomial numVars}
    (noWrap :
      ∀ index, left.exponent index + right.exponent index < exponentModulus) :
    left.wrappedMul right = left * right := by
  ext index
  exact Nat.mod_eq_of_lt (noWrap index)

end Monomial

namespace MultivariatePolynomial

variable {numVars : ℕ} {vars : Fin numVars → Symbol} {K : Type}
variable [CommRing K]

/-- Every exponent is a value of `Exponent`. -/
def Fits (poly : MultivariatePolynomial vars K) : Prop :=
  ∀ term ∈ poly.terms, term.1.Fits

/-- Exponents in range are exponents below the modulus of what is denoted. -/
theorem Fits.below
    {poly : MultivariatePolynomial vars K}
    (fits : poly.Fits) :
    Below exponentModulus poly.toMvPolynomial := by
  intro exponents occurs index
  obtain ⟨monomial, rfl⟩ := Monomial.exists_toFinsupp_eq exponents
  obtain ⟨term, member, same⟩ := exists_of_coeff_ne_zero occurs
  exact same ▸ fits term member index

variable [DecidableEq K]

/-- `operator*` on 32-bit exponents: all products of terms, collected. -/
def wrappedMul
    (left right : MultivariatePolynomial vars K) :
    MultivariatePolynomial vars K :=
  if left.isZero || right.isZero then
    0
  else
    ofRaw
      (left.terms.flatMap (fun one =>
        right.terms.map (fun other =>
          (one.1.wrappedMul other.1, one.2 * other.2))))

omit [DecidableEq K] in
theorem fits_zero :
    (0 : MultivariatePolynomial vars K).Fits := by
  intro term member
  cases member

theorem fits_fromTerm
    {monomial : Monomial numVars}
    (fits : monomial.Fits)
    (coefficient : K) :
    (fromTerm monomial coefficient : MultivariatePolynomial vars K).Fits := by
  intro term member
  rw [fromTerm] at member
  split at member
  · cases member
  · rw [List.mem_singleton.mp member]
    exact fits

/-- Merging two lists of terms brings in no monomial. -/
theorem fits_mergeTerms
    {combine : K → K → K}
    {left right : MultivariatePolynomial vars K}
    (leftFits : left.Fits)
    (rightFits : right.Fits) :
    ∀ term ∈ mergeTerms combine left.terms right.terms, term.1.Fits := by
  intro term member
  rcases exists_of_mem_mergeTerms member with found | found
  · obtain ⟨first, firstMember, same⟩ := found
    exact same ▸ leftFits first firstMember
  · obtain ⟨second, secondMember, same⟩ := found
    exact same ▸ rightFits second secondMember

omit [DecidableEq K] in
theorem fits_neg
    {poly : MultivariatePolynomial vars K}
    (fits : poly.Fits) :
    (-poly).Fits := by
  intro term member
  obtain ⟨original, originalMember, rfl⟩ := List.mem_map.mp member
  exact fits original originalMember

theorem fits_ofRaw
    {raw : List (Term numVars K)}
    (fits : ∀ term ∈ raw, term.1.Fits) :
    (ofRaw raw : MultivariatePolynomial vars K).Fits := by
  intro term member
  obtain ⟨original, originalMember, same⟩ := exists_of_mem_collectTerms member
  exact same ▸ fits original originalMember

/-- Whatever is multiplied, the exponents of the product are in range. -/
theorem fits_wrappedMul
    (left right : MultivariatePolynomial vars K) :
    (left.wrappedMul right).Fits := by
  rw [wrappedMul]
  split
  · exact fits_zero
  · refine fits_ofRaw ?_
    intro term member
    obtain ⟨one, _, inProducts⟩ := List.mem_flatMap.mp member
    obtain ⟨other, _, rfl⟩ := List.mem_map.mp inProducts
    exact Monomial.fits_wrappedMul one.1 other.1

theorem fits_evaluate
    {poly : MultivariatePolynomial vars K}
    (fits : poly.Fits)
    (varIndex : Fin numVars)
    (value : K) :
    (poly.evaluate varIndex value).Fits := by
  refine fits_ofRaw ?_
  intro term member index
  obtain ⟨original, originalMember, rfl⟩ := List.mem_map.mp member
  simp only [Monomial.freeze]
  split
  · exact Nat.two_pow_pos 32
  · exact fits original originalMember index

omit [DecidableEq K] in
theorem fits_leadingCoefficientIn
    {vars : Fin (numVars + 1) → Symbol}
    {poly : MultivariatePolynomial vars K}
    (fits : poly.Fits)
    (varIndex : Fin (numVars + 1)) :
    (poly.leadingCoefficientIn varIndex).Fits := by
  intro term member index
  obtain ⟨original, originalMember, rfl⟩ := List.mem_map.mp member
  exact fits original (List.mem_filter.mp originalMember).1 (varIndex.succAbove index)

/-- A power of a single variable has that exponent and zeros. -/
theorem fits_single
    {varIndex : Fin numVars}
    {exponent : ℕ}
    (small : exponent < exponentModulus) :
    (Monomial.single varIndex exponent).Fits := by
  intro index
  simp only [Monomial.single]
  split
  · exact small
  · exact Nat.two_pow_pos 32

/-- The only variable. -/
theorem fits_first : (Monomial.single (0 : Fin 1) 1).Fits :=
  fits_single (by decide)

/-- The square of the only variable. -/
theorem fits_square : (Monomial.single (0 : Fin 1) 2).Fits :=
  fits_single (by decide)

omit [DecidableEq K] in
theorem fits_toUnivariate
    {poly : MultivariatePolynomial vars K}
    (fits : poly.Fits)
    {varIndex : Fin numVars}
    {univariate : MultivariatePolynomial (fun _ : Fin 1 => vars varIndex) K}
    (returned : poly.toUnivariate varIndex = .ok univariate) :
    univariate.Fits := by
  rw [toUnivariate] at returned
  split at returned
  · cases returned
    intro term member
    obtain ⟨original, originalMember, rfl⟩ := List.mem_map.mp member
    exact fits_single (fits original originalMember varIndex)
  · cases returned

omit [DecidableEq K] in
theorem fits_embedUnivariate
    {single : Fin 1 → Symbol}
    {univariate : MultivariatePolynomial single K}
    (fits : univariate.Fits)
    (varIndex : Fin numVars) :
    (embedUnivariate varIndex univariate : MultivariatePolynomial vars K).Fits := by
  intro term member
  obtain ⟨original, originalMember, rfl⟩ := List.mem_map.mp member
  exact fits_single (fits original originalMember 0)

omit [DecidableEq K] in
/-- Wrapping each product of monomials is wrapping the product. -/
theorem wrap_termsValue_wrappedMul
    (left right : List (Term numVars K)) :
    wrap exponentModulus
        (termsValue
          (left.flatMap (fun one =>
            right.map (fun other => (one.1.wrappedMul other.1, one.2 * other.2))))) =
      wrap exponentModulus (termsValue left * termsValue right) := by
  have row
      (one : Term numVars K)
      (others : List (Term numVars K)) :
      wrap exponentModulus
          (termsValue
            (others.map (fun other => (one.1.wrappedMul other.1, one.2 * other.2)))) =
        wrap exponentModulus
          (MvPolynomial.monomial one.1.toFinsupp one.2 * termsValue others) := by
    induction others with
    | nil =>
        simp
    | cons other rest inductionHypothesis =>
        have wrapped :
            wrap exponentModulus
                (MvPolynomial.monomial (one.1.wrappedMul other.1).toFinsupp
                  (one.2 * other.2)) =
              wrap exponentModulus
                (MvPolynomial.monomial (one.1 * other.1).toFinsupp
                  (one.2 * other.2)) :=
          wrap_monomial_congr (fun index => Nat.mod_mod _ _) _
        rw [List.map_cons, termsValue_cons, map_add, wrapped, inductionHypothesis,
          termsValue_cons, mul_add, map_add, MvPolynomial.monomial_mul,
          Monomial.toFinsupp_mul]
  induction left with
  | nil =>
      simp
  | cons one rest inductionHypothesis =>
      rw [List.flatMap_cons, termsValue_append, map_add, row, inductionHypothesis,
        termsValue_cons, add_mul, map_add]

/-- The product is the product modulo the range of the exponents. -/
theorem wrap_toMvPolynomial_wrappedMul
    (left right : MultivariatePolynomial vars K) :
    wrap exponentModulus (left.wrappedMul right).toMvPolynomial =
      wrap exponentModulus left.toMvPolynomial *
        wrap exponentModulus right.toMvPolynomial := by
  rw [wrappedMul, ← map_mul]
  split
  · rename_i someZero
    rcases Bool.or_eq_true_iff.mp someZero with leftZero | rightZero
    · simp [isZero_iff.mp leftZero]
    · simp [isZero_iff.mp rightZero]
  · rw [toMvPolynomial_ofRaw, wrap_termsValue_wrappedMul]
    rfl

/-- A product whose exponent sums stay below the modulus is not wrapped. -/
theorem wrappedMul_eq_mul
    {left right : MultivariatePolynomial vars K}
    (noWrap :
      ∀ one ∈ left.terms, ∀ other ∈ right.terms, ∀ index,
        one.1.exponent index + other.1.exponent index < exponentModulus) :
    left.wrappedMul right = left * right := by
  have sameTerms :
      left.terms.flatMap (fun one =>
          right.terms.map (fun other =>
            (one.1.wrappedMul other.1, one.2 * other.2))) =
        left.terms.flatMap (fun one =>
          right.terms.map (fun other => (one.1 * other.1, one.2 * other.2))) := by
    refine List.flatMap_congr ?_
    intro one oneMember
    refine List.map_congr_left ?_
    intro other otherMember
    rw [Monomial.wrappedMul_eq_mul (noWrap one oneMember other otherMember)]
  rw [wrappedMul, sameTerms]
  rfl

end MultivariatePolynomial

open MultivariatePolynomial (wrappedMul)

/-- `MultivariatePolynomial<R>` with its 32-bit exponents. -/
structure MachinePolynomial
    {numVars : ℕ}
    (vars : Fin numVars → Symbol)
    (K : Type)
    [CommRing K] extends
    MultivariatePolynomial vars K where
  fits : toMultivariatePolynomial.Fits

namespace MachinePolynomial

variable {numVars : ℕ} {vars : Fin numVars → Symbol} {K : Type}
variable [CommRing K]

/-- `operator==` compares terms. -/
theorem ext_polynomial
    {left right : MachinePolynomial vars K}
    (same : left.toMultivariatePolynomial = right.toMultivariatePolynomial) :
    left = right := by
  cases left
  cases right
  cases same
  rfl

instance [DecidableEq K] : DecidableEq (MachinePolynomial vars K) := by
  intro left right
  exact decidable_of_iff
    (left.toMultivariatePolynomial = right.toMultivariatePolynomial)
    ⟨ext_polynomial, fun same => congrArg _ same⟩

/-- The zero polynomial. -/
instance : Zero (MachinePolynomial vars K) where
  zero := ⟨0, MultivariatePolynomial.fits_zero⟩

variable [DecidableEq K]

/-- `from_term`. -/
def fromTerm
    (monomial : Monomial numVars)
    (fits : monomial.Fits)
    (coefficient : K) :
    MachinePolynomial vars K :=
  ⟨.fromTerm monomial coefficient, MultivariatePolynomial.fits_fromTerm fits coefficient⟩

/-- `constant`. -/
def constant (value : K) : MachinePolynomial vars K :=
  fromTerm 1 Monomial.fits_one value

/-- `operator+`. -/
instance : Add (MachinePolynomial vars K) where
  add left right :=
    ⟨left.toMultivariatePolynomial + right.toMultivariatePolynomial,
      MultivariatePolynomial.fits_mergeTerms left.fits right.fits⟩

/-- `operator-`. -/
instance : Sub (MachinePolynomial vars K) where
  sub left right :=
    ⟨left.toMultivariatePolynomial - right.toMultivariatePolynomial,
      MultivariatePolynomial.fits_mergeTerms left.fits right.fits⟩

omit [DecidableEq K] in
/-- `operator-` with one operand. -/
instance : Neg (MachinePolynomial vars K) where
  neg poly := ⟨-poly.toMultivariatePolynomial, MultivariatePolynomial.fits_neg poly.fits⟩

/-- `operator*`. -/
instance : Mul (MachinePolynomial vars K) where
  mul left right :=
    ⟨left.toMultivariatePolynomial.wrappedMul right.toMultivariatePolynomial,
      MultivariatePolynomial.fits_wrappedMul _ _⟩

/-- `evaluate`. -/
def evaluate
    (poly : MachinePolynomial vars K)
    (varIndex : Fin numVars)
    (value : K) :
    MachinePolynomial vars K :=
  ⟨poly.toMultivariatePolynomial.evaluate varIndex value,
    MultivariatePolynomial.fits_evaluate poly.fits varIndex value⟩

/-- `leading_coefficient_in`. -/
def leadingCoefficientIn
    {vars : Fin (numVars + 1) → Symbol}
    (poly : MachinePolynomial vars K)
    (varIndex : Fin (numVars + 1)) :
    MachinePolynomial (varIndex.removeNth vars) K :=
  ⟨poly.toMultivariatePolynomial.leadingCoefficientIn varIndex,
    MultivariatePolynomial.fits_leadingCoefficientIn poly.fits varIndex⟩

/-- `to_univariate`. -/
def toUnivariate
    (poly : MachinePolynomial vars K)
    (varIndex : Fin numVars) :
    Except PolyError (MachinePolynomial (fun _ : Fin 1 => vars varIndex) K) :=
  match returned : poly.toMultivariatePolynomial.toUnivariate varIndex with
  | .error error => .error error
  | .ok univariate =>
      .ok ⟨univariate, MultivariatePolynomial.fits_toUnivariate poly.fits returned⟩

/-- `embed_univariate`. -/
def embedUnivariate
    {single : Fin 1 → Symbol}
    (varIndex : Fin numVars)
    (univariate : MachinePolynomial single K) :
    MachinePolynomial vars K :=
  ⟨.embedUnivariate varIndex univariate.toMultivariatePolynomial,
    MultivariatePolynomial.fits_embedUnivariate univariate.fits varIndex⟩

/-- What a polynomial denotes when exponents are added in 32 bits. -/
noncomputable def wrapped
    (poly : MachinePolynomial vars K) :
    AddMonoidAlgebra K (Fin numVars → ZMod exponentModulus) :=
  wrap exponentModulus poly.toMvPolynomial

omit [DecidableEq K] in
theorem wrapped_injective :
    Function.Injective
      (wrapped :
        MachinePolynomial vars K →
          AddMonoidAlgebra K (Fin numVars → ZMod exponentModulus)) := by
  intro left right same
  refine ext_polynomial (MultivariatePolynomial.toMvPolynomial_injective ?_)
  exact WrappedExponents.eq_of_wrap_eq left.fits.below right.fits.below same

omit [DecidableEq K] in
@[simp] theorem wrapped_zero :
    (0 : MachinePolynomial vars K).wrapped = 0 :=
  map_zero _

@[simp] theorem wrapped_one :
    (constant 1 : MachinePolynomial vars K).wrapped = 1 := by
  have denotesOne :
      (MultivariatePolynomial.constant 1 :
        MultivariatePolynomial vars K).toMvPolynomial = 1 := by
    simp
  exact (congrArg (wrap exponentModulus) denotesOne).trans (map_one _)

@[simp] theorem wrapped_add
    (left right : MachinePolynomial vars K) :
    (left + right).wrapped = left.wrapped + right.wrapped := by
  rw [wrapped, wrapped, wrapped, ← map_add, ← MultivariatePolynomial.toMvPolynomial_add]
  rfl

@[simp] theorem wrapped_sub
    (left right : MachinePolynomial vars K) :
    (left - right).wrapped = left.wrapped - right.wrapped := by
  rw [wrapped, wrapped, wrapped, ← map_sub, ← MultivariatePolynomial.toMvPolynomial_sub]
  rfl

omit [DecidableEq K] in
@[simp] theorem wrapped_neg
    (poly : MachinePolynomial vars K) :
    (-poly).wrapped = -poly.wrapped := by
  rw [wrapped, wrapped, ← map_neg, ← MultivariatePolynomial.toMvPolynomial_neg]
  rfl

@[simp] theorem wrapped_mul
    (left right : MachinePolynomial vars K) :
    (left * right).wrapped = left.wrapped * right.wrapped :=
  MultivariatePolynomial.wrap_toMvPolynomial_wrappedMul _ _

omit [DecidableEq K] in
/-- What the class promises of its list of terms. -/
structure CanonicalTerms (terms : List (Term numVars K)) : Prop where
  descending : terms.Pairwise (fun left right => right.1 < left.1)
  distinct : (terms.map Prod.fst).Nodup
  nonzero : ∀ term ∈ terms, term.2 ≠ 0
  inRange : ∀ term ∈ terms, term.1.Fits

omit [DecidableEq K] in
theorem canonicalTerms (poly : MachinePolynomial vars K) :
    CanonicalTerms poly.terms where
  descending := poly.descending
  distinct := by
    rw [List.nodup_iff_pairwise_ne, List.pairwise_map]
    exact poly.descending.imp (fun less => ne_of_gt less)
  nonzero := poly.nonzero
  inRange := poly.fits

/-- Every constructor and operation returns canonical terms. -/
structure CanonicalOperations
    (vars : Fin numVars → Symbol)
    (K : Type)
    [CommRing K]
    [DecidableEq K] :
    Prop where
  fromTerm :
    ∀ monomial fits coefficient,
      CanonicalTerms
        (fromTerm monomial fits coefficient : MachinePolynomial vars K).terms
  constant : ∀ value, CanonicalTerms (constant value : MachinePolynomial vars K).terms
  add : ∀ left right : MachinePolynomial vars K, CanonicalTerms (left + right).terms
  sub : ∀ left right : MachinePolynomial vars K, CanonicalTerms (left - right).terms
  neg : ∀ poly : MachinePolynomial vars K, CanonicalTerms (-poly).terms
  mul : ∀ left right : MachinePolynomial vars K, CanonicalTerms (left * right).terms
  evaluate :
    ∀ (poly : MachinePolynomial vars K) varIndex value,
      CanonicalTerms (poly.evaluate varIndex value).terms
  leadingCoefficientIn :
    ∀ {otherVars} {longer : Fin (otherVars + 1) → Symbol}
      (poly : MachinePolynomial longer K) varIndex,
      CanonicalTerms (poly.leadingCoefficientIn varIndex).terms
  toUnivariate :
    ∀ (poly : MachinePolynomial vars K) varIndex univariate,
      poly.toUnivariate varIndex = .ok univariate → CanonicalTerms univariate.terms
  embedUnivariate :
    ∀ {single : Fin 1 → Symbol} varIndex (univariate : MachinePolynomial single K),
      CanonicalTerms
        (embedUnivariate varIndex univariate : MachinePolynomial vars K).terms

/-- The laws of a commutative ring, as equalities of term lists. -/
structure RingLaws
    (vars : Fin numVars → Symbol)
    (K : Type)
    [CommRing K]
    [DecidableEq K] :
    Prop where
  add_assoc : ∀ p q r : MachinePolynomial vars K, p + q + r = p + (q + r)
  add_comm : ∀ p q : MachinePolynomial vars K, p + q = q + p
  add_zero : ∀ p : MachinePolynomial vars K, p + 0 = p
  zero_add : ∀ p : MachinePolynomial vars K, 0 + p = p
  sub_eq : ∀ p q : MachinePolynomial vars K, p - q = p + (-q)
  add_neg : ∀ p : MachinePolynomial vars K, p + (-p) = 0
  mul_assoc : ∀ p q r : MachinePolynomial vars K, p * q * r = p * (q * r)
  mul_comm : ∀ p q : MachinePolynomial vars K, p * q = q * p
  mul_one : ∀ p : MachinePolynomial vars K, p * constant 1 = p
  one_mul : ∀ p : MachinePolynomial vars K, constant 1 * p = p
  mul_add : ∀ p q r : MachinePolynomial vars K, p * (q + r) = p * q + p * r
  add_mul : ∀ p q r : MachinePolynomial vars K, (p + q) * r = p * r + q * r

theorem canonicalOperations :
    CanonicalOperations vars K where
  fromTerm _ _ _ := canonicalTerms _
  constant _ := canonicalTerms _
  add _ _ := canonicalTerms _
  sub _ _ := canonicalTerms _
  neg _ := canonicalTerms _
  mul _ _ := canonicalTerms _
  evaluate _ _ _ := canonicalTerms _
  leadingCoefficientIn _ _ := canonicalTerms _
  toUnivariate _ _ _ _ := canonicalTerms _
  embedUnivariate _ _ := canonicalTerms _

theorem ringLaws :
    RingLaws vars K where
  add_assoc p q r := wrapped_injective (by simp only [wrapped_add, add_assoc])
  add_comm p q := wrapped_injective (by simp only [wrapped_add, add_comm])
  add_zero p := wrapped_injective (by simp)
  zero_add p := wrapped_injective (by simp)
  sub_eq p q := wrapped_injective (by simp [sub_eq_add_neg])
  add_neg p := wrapped_injective (by simp)
  mul_assoc p q r := wrapped_injective (by simp [mul_assoc])
  mul_comm p q := wrapped_injective (by simp [mul_comm])
  mul_one p := wrapped_injective (by simp)
  one_mul p := wrapped_injective (by simp)
  mul_add p q r := wrapped_injective (by simp [mul_add])
  add_mul p q r := wrapped_injective (by simp [add_mul])

/--
Polynomials over every commutative ring stay canonical, and their operators satisfy
the laws of a commutative ring under `operator==`.
-/
theorem canonicalOperations_and_ringLaws
    {numVars : ℕ}
    (vars : Fin numVars → Symbol)
    (K : Type)
    [CommRing K]
    [DecidableEq K] :
    CanonicalOperations vars K ∧ RingLaws vars K :=
  ⟨canonicalOperations, ringLaws⟩

end MachinePolynomial

end PolyCore
