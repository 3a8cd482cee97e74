import Mathlib.RingTheory.MvPolynomial.MonomialOrder
import Mathlib.Tactic.LinearCombination
import Stocas.Poly.Variables

namespace PolyCore

open SymbolTable (Symbol)

/-!
# What a list of terms denotes

A polynomial of the source stands for an element of the polynomial ring.  Every
operation computes the ring's operation, and the first term is the leading term
in the lexicographic order.
-/

namespace MultivariatePolynomial

variable {numVars : ℕ} {K : Type} [CommRing K]

/-- The sum of a list of terms. -/
noncomputable def termsValue
    (terms : List (Term numVars K)) :
    MvPolynomial (Fin numVars) K :=
  (terms.map (fun term => MvPolynomial.monomial term.1.toFinsupp term.2)).sum

/-- The polynomial that the source's polynomial stands for. -/
noncomputable def toMvPolynomial
    {vars : Fin numVars → Symbol}
    (poly : MultivariatePolynomial vars K) :
    MvPolynomial (Fin numVars) K :=
  termsValue poly.terms

@[simp] theorem termsValue_nil :
    termsValue ([] : List (Term numVars K)) = 0 :=
  rfl

@[simp] theorem termsValue_cons
    (term : Term numVars K)
    (terms : List (Term numVars K)) :
    termsValue (term :: terms) =
      MvPolynomial.monomial term.1.toFinsupp term.2 + termsValue terms := by
  simp [termsValue]

@[simp] theorem termsValue_append
    (terms others : List (Term numVars K)) :
    termsValue (terms ++ others) = termsValue terms + termsValue others := by
  simp [termsValue]

theorem termsValue_perm
    {terms others : List (Term numVars K)}
    (reordered : terms.Perm others) :
    termsValue terms = termsValue others :=
  (reordered.map _).sum_eq

@[simp] theorem toMvPolynomial_zero
    {vars : Fin numVars → Symbol} :
    (0 : MultivariatePolynomial vars K).toMvPolynomial = 0 :=
  rfl

/-- A list of terms has no monomials but its own. -/
theorem exists_of_coeff_ne_zero
    {terms : List (Term numVars K)}
    {monomial : Monomial numVars}
    (occurs : (termsValue terms).coeff monomial.toFinsupp ≠ 0) :
    ∃ term ∈ terms, term.1 = monomial := by
  induction terms with
  | nil =>
      simp at occurs
  | cons first rest inductionHypothesis =>
      by_cases same : first.1 = monomial
      · exact ⟨first, by simp, same⟩
      · have inRest : (termsValue rest).coeff monomial.toFinsupp ≠ 0 := by
          simpa [MvPolynomial.coeff_monomial, same] using occurs
        obtain ⟨term, member, found⟩ := inductionHypothesis inRest
        exact ⟨term, by simp [member], found⟩

/-- Monomials of a polynomial are at most its leading monomial. -/
theorem le_of_coeff_ne_zero
    {vars : Fin numVars → Symbol}
    {poly : MultivariatePolynomial vars K}
    {leading : Term numVars K}
    {rest : List (Term numVars K)}
    (shape : poly.terms = leading :: rest)
    {monomial : Monomial numVars}
    (occurs : poly.toMvPolynomial.coeff monomial.toFinsupp ≠ 0) :
    monomial ≤ leading.1 := by
  obtain ⟨term, member, rfl⟩ := exists_of_coeff_ne_zero occurs
  have below := List.pairwise_cons.mp (shape ▸ poly.descending)
  rw [shape] at member
  rcases List.mem_cons.mp member with isLeading | inRest
  · rw [isLeading]
  · exact le_of_lt (below.1 term inRest)

/-- The coefficient of a term's monomial is the term's coefficient. -/
theorem coeff_of_mem
    {vars : Fin numVars → Symbol}
    {poly : MultivariatePolynomial vars K}
    {term : Term numVars K}
    (member : term ∈ poly.terms) :
    poly.toMvPolynomial.coeff term.1.toFinsupp = term.2 := by
  obtain ⟨before, after, split⟩ := List.append_of_mem member
  obtain ⟨_, fromTerm, apart⟩ := List.pairwise_append.mp (split ▸ poly.descending)
  have notBefore : (termsValue before).coeff term.1.toFinsupp = 0 := by
    by_contra occurs
    obtain ⟨other, otherMember, same⟩ := exists_of_coeff_ne_zero occurs
    exact absurd (apart other otherMember term (by simp)) (by simp [same])
  have notAfter : (termsValue after).coeff term.1.toFinsupp = 0 := by
    by_contra occurs
    obtain ⟨other, otherMember, same⟩ := exists_of_coeff_ne_zero occurs
    exact absurd ((List.pairwise_cons.mp fromTerm).1 other otherMember) (by simp [same])
  simp [toMvPolynomial, split, notBefore, notAfter]

/-- The leading monomial's coefficient is the leading coefficient. -/
theorem coeff_leading
    {vars : Fin numVars → Symbol}
    {poly : MultivariatePolynomial vars K}
    {leading : Term numVars K}
    {rest : List (Term numVars K)}
    (shape : poly.terms = leading :: rest) :
    poly.toMvPolynomial.coeff leading.1.toFinsupp = leading.2 :=
  coeff_of_mem (by simp [shape])

/-- The leading coefficient of a polynomial is not zero. -/
theorem leading_ne_zero
    {vars : Fin numVars → Symbol}
    {poly : MultivariatePolynomial vars K}
    {leading : Term numVars K}
    {rest : List (Term numVars K)}
    (shape : poly.terms = leading :: rest) :
    leading.2 ≠ 0 :=
  poly.nonzero leading (by simp [shape])

/-- Only the empty list of terms stands for zero. -/
theorem toMvPolynomial_eq_zero_iff
    {vars : Fin numVars → Symbol}
    {poly : MultivariatePolynomial vars K} :
    poly.toMvPolynomial = 0 ↔ poly.terms = [] := by
  constructor
  · intro isZero
    cases shape : poly.terms with
    | nil =>
        rfl
    | cons leading rest =>
        have coefficient := coeff_leading shape
        rw [isZero, MvPolynomial.coeff_zero] at coefficient
        exact absurd coefficient.symm (leading_ne_zero shape)
  · intro noTerms
    simp [toMvPolynomial, noTerms]

/-- `is_zero` holds of the polynomials that stand for zero. -/
theorem isZero_iff
    {vars : Fin numVars → Symbol}
    {poly : MultivariatePolynomial vars K} :
    poly.isZero = true ↔ poly.toMvPolynomial = 0 := by
  rw [toMvPolynomial_eq_zero_iff, isZero, List.isEmpty_iff]

/-- A nonzero polynomial has a leading term. -/
theorem exists_leading
    {vars : Fin numVars → Symbol}
    {poly : MultivariatePolynomial vars K}
    (isNonzero : poly.toMvPolynomial ≠ 0) :
    ∃ leading rest, poly.terms = leading :: rest :=
  List.exists_cons_of_ne_nil
    (fun noTerms => isNonzero (toMvPolynomial_eq_zero_iff.mpr noTerms))

open MonomialOrder in
/-- The first term's monomial is the degree in the lexicographic order. -/
theorem degree_leading
    {vars : Fin numVars → Symbol}
    {poly : MultivariatePolynomial vars K}
    {leading : Term numVars K}
    {rest : List (Term numVars K)}
    (shape : poly.terms = leading :: rest) :
    lex.degree poly.toMvPolynomial = leading.1.toFinsupp := by
  have occurs : poly.toMvPolynomial.coeff leading.1.toFinsupp ≠ 0 := by
    rw [coeff_leading shape]
    exact leading_ne_zero shape
  refine lex.toSyn.injective (le_antisymm ?_ ?_)
  · rw [degree_le_iff]
    intro exponents member
    obtain ⟨monomial, rfl⟩ := Monomial.exists_toFinsupp_eq exponents
    exact Monomial.toFinsupp_le_iff.mpr
      (le_of_coeff_ne_zero shape (MvPolynomial.mem_support_iff.mp member))
  · exact le_degree (MvPolynomial.mem_support_iff.mpr occurs)

open MonomialOrder in
/-- The first term's coefficient is the leading coefficient. -/
theorem leadingCoeff_leading
    {vars : Fin numVars → Symbol}
    {poly : MultivariatePolynomial vars K}
    {leading : Term numVars K}
    {rest : List (Term numVars K)}
    (shape : poly.terms = leading :: rest) :
    lex.leadingCoeff poly.toMvPolynomial = leading.2 := by
  rw [leadingCoeff, degree_leading shape, coeff_leading shape]

/-- Lists of terms in order without zeros are determined by their sums. -/
theorem terms_eq_of_termsValue_eq
    {terms others : List (Term numVars K)}
    (descending : terms.Pairwise (fun left right => right.1 < left.1))
    (nonzero : ∀ term ∈ terms, term.2 ≠ 0)
    (othersDescending : others.Pairwise (fun left right => right.1 < left.1))
    (othersNonzero : ∀ term ∈ others, term.2 ≠ 0)
    (same : termsValue terms = termsValue others) :
    terms = others := by
  let noVars : Fin numVars → Symbol := fun _ => ⟨0⟩
  induction terms generalizing others with
  | nil =>
      let other : MultivariatePolynomial noVars K :=
        { terms := others, descending := othersDescending, nonzero := othersNonzero }
      have otherZero : other.toMvPolynomial = 0 := same.symm
      exact (toMvPolynomial_eq_zero_iff.mp otherZero).symm
  | cons first rest inductionHypothesis =>
      let whole : MultivariatePolynomial noVars K :=
        { terms := first :: rest, descending := descending, nonzero := nonzero }
      let other : MultivariatePolynomial noVars K :=
        { terms := others, descending := othersDescending, nonzero := othersNonzero }
      have sameValue : whole.toMvPolynomial = other.toMvPolynomial := same
      have wholeShape : whole.terms = first :: rest := rfl
      have wholeNonzero : whole.toMvPolynomial ≠ 0 := by
        simp [toMvPolynomial_eq_zero_iff, wholeShape]
      obtain ⟨leading, more, otherShape⟩ := exists_leading (sameValue ▸ wholeNonzero)
      have sameMonomial : first.1 = leading.1 := by
        apply Monomial.toFinsupp_injective
        rw [← degree_leading wholeShape, sameValue, degree_leading otherShape]
      have sameCoefficient : first.2 = leading.2 := by
        rw [← leadingCoeff_leading wholeShape, sameValue,
          leadingCoeff_leading otherShape]
      have sameLeading : first = leading := Prod.ext sameMonomial sameCoefficient
      have isOthers : others = first :: more := by
        rw [sameLeading]
        exact otherShape
      subst isOthers
      rw [termsValue_cons, termsValue_cons, add_right_inj] at same
      rw [inductionHypothesis descending.of_cons
        (fun term member => nonzero term (by simp [member])) othersDescending.of_cons
        (fun term member => othersNonzero term (by simp [member])) same]

/-- Polynomials that stand for the same element are equal. -/
theorem toMvPolynomial_injective
    {vars : Fin numVars → Symbol} :
    Function.Injective
      (toMvPolynomial :
        MultivariatePolynomial vars K → MvPolynomial (Fin numVars) K) := by
  intro left right same
  have sameTerms :=
    terms_eq_of_termsValue_eq left.descending left.nonzero right.descending
      right.nonzero same
  cases left
  cases right
  cases sameTerms
  rfl

section Operations

variable [DecidableEq K] {vars : Fin numVars → Symbol}

/-- Merging adds a multiple of the second list. -/
theorem termsValue_mergeTerms
    {combine : K → K → K}
    {factor : K}
    (affine : ∀ one other, combine one other = one + factor * other)
    (firsts seconds : List (Term numVars K)) :
    termsValue (mergeTerms combine firsts seconds) =
      termsValue firsts + MvPolynomial.C factor * termsValue seconds := by
  have scaled
      (term : Term numVars K) :
      MvPolynomial.monomial term.1.toFinsupp (combine 0 term.2) =
        MvPolynomial.C factor * MvPolynomial.monomial term.1.toFinsupp term.2 := by
    rw [affine, zero_add, MvPolynomial.C_mul_monomial]
  fun_induction mergeTerms combine firsts seconds with
  | case1 others =>
      induction others with
      | nil =>
          simp
      | cons other others inductionHypothesis =>
          simp only [termsValue_nil, zero_add] at inductionHypothesis
          simp only [List.map_cons, termsValue_cons, scaled, inductionHypothesis,
            termsValue_nil, zero_add, mul_add]
  | case2 first rest =>
      simp
  | case3 first rest other others same cancels inductionHypothesis =>
      have cancelled :
          MvPolynomial.monomial first.1.toFinsupp first.2 +
            MvPolynomial.C factor *
              MvPolynomial.monomial other.1.toFinsupp other.2 = 0 := by
        rw [MvPolynomial.C_mul_monomial, ← same, ← map_add, ← affine, cancels, map_zero]
      rw [inductionHypothesis, termsValue_cons, termsValue_cons]
      linear_combination -cancelled
  | case4 first rest other others same keeps inductionHypothesis =>
      have combined :
          MvPolynomial.monomial first.1.toFinsupp (combine first.2 other.2) =
            MvPolynomial.monomial first.1.toFinsupp first.2 +
              MvPolynomial.C factor *
                MvPolynomial.monomial other.1.toFinsupp other.2 := by
        rw [MvPolynomial.C_mul_monomial, ← same, ← map_add, ← affine]
      rw [termsValue_cons, inductionHypothesis, termsValue_cons, termsValue_cons,
        combined]
      ring
  | case5 first rest other others differ less inductionHypothesis =>
      rw [termsValue_cons, inductionHypothesis, termsValue_cons, termsValue_cons]
      ring
  | case6 first rest other others differ less inductionHypothesis =>
      simp only [termsValue_cons, inductionHypothesis, scaled]
      ring

@[simp] theorem toMvPolynomial_add
    (left right : MultivariatePolynomial vars K) :
    (left + right).toMvPolynomial = left.toMvPolynomial + right.toMvPolynomial := by
  have merged :
      (left + right).toMvPolynomial =
        left.toMvPolynomial + MvPolynomial.C 1 * right.toMvPolynomial :=
    termsValue_mergeTerms (by simp) left.terms right.terms
  simpa using merged

@[simp] theorem toMvPolynomial_sub
    (left right : MultivariatePolynomial vars K) :
    (left - right).toMvPolynomial = left.toMvPolynomial - right.toMvPolynomial := by
  have merged :
      (left - right).toMvPolynomial =
        left.toMvPolynomial + MvPolynomial.C (-1) * right.toMvPolynomial :=
    termsValue_mergeTerms (by intro one other; ring) left.terms right.terms
  rw [merged, map_neg, map_one]
  ring

omit [DecidableEq K] in
@[simp] theorem toMvPolynomial_neg
    (poly : MultivariatePolynomial vars K) :
    (-poly).toMvPolynomial = -poly.toMvPolynomial := by
  have negated
      (terms : List (Term numVars K)) :
      termsValue (terms.map (fun term => (term.1, -term.2))) = -termsValue terms := by
    induction terms with
    | nil =>
        simp
    | cons first rest inductionHypothesis =>
        simp [inductionHypothesis, add_comm]
  exact negated poly.terms

@[simp] theorem toMvPolynomial_fromTerm
    (monomial : Monomial numVars)
    (coefficient : K) :
    (fromTerm monomial coefficient : MultivariatePolynomial vars K).toMvPolynomial =
      MvPolynomial.monomial monomial.toFinsupp coefficient := by
  by_cases isZero : coefficient = 0
  · simp [fromTerm, isZero]
  · simp [fromTerm, isZero, toMvPolynomial]

@[simp] theorem toMvPolynomial_constant
    (value : K) :
    (constant value : MultivariatePolynomial vars K).toMvPolynomial =
      MvPolynomial.C value := by
  rw [constant, toMvPolynomial_fromTerm, Monomial.toFinsupp_one]
  rfl

omit [DecidableEq K] in
theorem termsValue_combineFrom
    (last : Term numVars K)
    (rest : List (Term numVars K)) :
    termsValue (combineFrom last rest) = termsValue (last :: rest) := by
  induction rest generalizing last with
  | nil =>
      rfl
  | cons next rest inductionHypothesis =>
      by_cases same : last.1 = next.1
      · rw [combineFrom, if_pos same, inductionHypothesis]
        simp only [termsValue_cons, map_add, ← same]
        ring
      · simp only [combineFrom, if_neg same, termsValue_cons, inductionHypothesis]

theorem termsValue_filter_ne_zero
    (terms : List (Term numVars K)) :
    termsValue (terms.filter (fun term => term.2 ≠ 0)) = termsValue terms := by
  induction terms with
  | nil =>
      rfl
  | cons first rest inductionHypothesis =>
      by_cases isZero : first.2 = 0
      · simpa [List.filter_cons, isZero] using inductionHypothesis
      · simpa [List.filter_cons, isZero] using inductionHypothesis

/-- Sorting, combining and erasing zeros keep the sum of the terms. -/
@[simp] theorem toMvPolynomial_ofRaw
    (raw : List (Term numVars K)) :
    (ofRaw raw : MultivariatePolynomial vars K).toMvPolynomial = termsValue raw := by
  have sorted : termsValue (sortTerms raw) = termsValue raw :=
    termsValue_perm (List.perm_insertionSort _ raw)
  have combined : termsValue (combineLike (sortTerms raw)) = termsValue raw := by
    cases shape : sortTerms raw with
    | nil =>
        rw [← sorted, shape]
        rfl
    | cons first rest =>
        rw [combineLike, termsValue_combineFrom, ← shape, sorted]
  rw [← combined]
  exact termsValue_filter_ne_zero _

omit [DecidableEq K] in
theorem termsValue_map_mul
    (term : Term numVars K)
    (terms : List (Term numVars K)) :
    termsValue (terms.map (fun other => (term.1 * other.1, term.2 * other.2))) =
      MvPolynomial.monomial term.1.toFinsupp term.2 * termsValue terms := by
  induction terms with
  | nil =>
      simp
  | cons first rest inductionHypothesis =>
      simp [inductionHypothesis, mul_add, MvPolynomial.monomial_mul]

@[simp] theorem toMvPolynomial_mul
    (left right : MultivariatePolynomial vars K) :
    (left * right).toMvPolynomial = left.toMvPolynomial * right.toMvPolynomial := by
  have products
      (terms : List (Term numVars K)) :
      termsValue
          (terms.flatMap (fun one =>
            right.terms.map (fun other => (one.1 * other.1, one.2 * other.2)))) =
        termsValue terms * right.toMvPolynomial := by
    induction terms with
    | nil =>
        simp
    | cons first rest inductionHypothesis =>
        rw [List.flatMap_cons, termsValue_append, inductionHypothesis,
          termsValue_map_mul, termsValue_cons, add_mul]
        rfl
  change (if left.isZero || right.isZero then
      (0 : MultivariatePolynomial vars K) else ofRaw _).toMvPolynomial = _
  split
  · rename_i someZero
    rcases Bool.or_eq_true_iff.mp someZero with leftZero | rightZero
    · simp [isZero_iff.mp leftZero]
    · simp [isZero_iff.mp rightZero]
  · rw [toMvPolynomial_ofRaw, products]
    rfl

end Operations

end MultivariatePolynomial

end PolyCore
