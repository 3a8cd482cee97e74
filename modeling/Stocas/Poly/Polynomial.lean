import Mathlib.Algebra.Field.Defs
import Mathlib.Data.Fin.Tuple.Basic
import Mathlib.Data.List.Sort
import Stocas.Poly.Monomial
import Stocas.SymbolTable.Table

namespace PolyCore

open SymbolTable (Symbol)

/-!
# Multivariate polynomials

A polynomial is a list of terms in descending order of their monomials, without
zero coefficients.  Its variable list is part of its type, so the checks that two
operands share one are made by the types.
-/

/-- What the polynomial algorithms throw, with the message. -/
inductive PolyError where
  /-- `std::domain_error` -/
  | domainError (message : String)
  /-- `std::logic_error` -/
  | logicError (message : String)
  /-- `std::runtime_error` -/
  | runtimeError (message : String)
  /-- the internal marker `UnluckyPoint` -/
  | unluckyPoint
  /-- a read past the end of a vector -/
  | outOfBounds
deriving DecidableEq

/-- A monomial with its coefficient. -/
abbrev Term (numVars : ℕ) (K : Type) :=
  Monomial numVars × K

/-- `MultivariatePolynomial<R>` over a fixed list of variables. -/
structure MultivariatePolynomial
    {numVars : ℕ}
    (vars : Fin numVars → Symbol)
    (K : Type)
    [Zero K] where
  terms : List (Term numVars K)
  descending : terms.Pairwise (fun left right => right.1 < left.1)
  nonzero : ∀ term ∈ terms, term.2 ≠ 0

namespace MultivariatePolynomial

variable {numVars : ℕ}
variable {vars : Fin numVars → Symbol}
variable {K : Type}

/-- `operator==` on polynomials over one variable list compares terms. -/
instance [Zero K] [DecidableEq K] :
    DecidableEq (MultivariatePolynomial vars K) := by
  intro left right
  exact decidable_of_iff (left.terms = right.terms)
    ⟨by intro same; cases left; cases right; cases same; rfl, by rintro rfl; rfl⟩

/-- The zero polynomial. -/
instance [Zero K] : Zero (MultivariatePolynomial vars K) where
  zero := ⟨[], List.Pairwise.nil, by simp⟩

/-- `is_zero`. -/
def isZero [Zero K] (poly : MultivariatePolynomial vars K) : Bool :=
  poly.terms.isEmpty

/-- `leading_term`, absent when the polynomial is zero. -/
def leadingTerm? [Zero K] (poly : MultivariatePolynomial vars K) :
    Option (Term numVars K) :=
  poly.terms.head?

/-- `leading_term`. -/
def leadingTerm [Zero K] (poly : MultivariatePolynomial vars K) :
    Except PolyError (Term numVars K) :=
  match poly.leadingTerm? with
  | none =>
      .error (.logicError "MultivariatePolynomial::leading_term: polynomial is zero")
  | some term => .ok term

/-- `from_term`: no term at all when the coefficient is zero. -/
def fromTerm [Zero K] [DecidableEq K]
    (monomial : Monomial numVars)
    (coefficient : K) :
    MultivariatePolynomial vars K :=
  if isNonzero : coefficient = 0 then
    0
  else
    ⟨[(monomial, coefficient)], List.pairwise_singleton _ _, by simpa using isNonzero⟩

/-- `constant`: a coefficient at the monomial one. -/
def constant [Zero K] [DecidableEq K] (value : K) :
    MultivariatePolynomial vars K :=
  fromTerm 1 value

section Merge

variable [CommRing K] [DecidableEq K]

/-- `merge_terms`: terms of both lists in order, equal monomials combined. -/
def mergeTerms (combine : K → K → K) :
    List (Term numVars K) → List (Term numVars K) → List (Term numVars K)
  | [], others => others.map (fun term => (term.1, combine 0 term.2))
  | first :: rest, [] => first :: rest
  | first :: rest, other :: others =>
      if first.1 = other.1 then
        if combine first.2 other.2 = 0 then
          mergeTerms combine rest others
        else
          (first.1, combine first.2 other.2) :: mergeTerms combine rest others
      else if other.1 < first.1 then
        first :: mergeTerms combine rest (other :: others)
      else
        (other.1, combine 0 other.2) :: mergeTerms combine (first :: rest) others
  termination_by firsts seconds => firsts.length + seconds.length

/-- Merging brings in no monomial that neither list has. -/
theorem exists_of_mem_mergeTerms
    {combine : K → K → K}
    {firsts seconds : List (Term numVars K)}
    {term : Term numVars K}
    (member : term ∈ mergeTerms combine firsts seconds) :
    (∃ first ∈ firsts, first.1 = term.1) ∨ ∃ second ∈ seconds, second.1 = term.1 := by
  fun_induction mergeTerms combine firsts seconds with
  | case1 others =>
      obtain ⟨other, otherMember, rfl⟩ := List.mem_map.mp member
      exact Or.inr ⟨other, otherMember, rfl⟩
  | case2 first rest =>
      exact Or.inl ⟨term, member, rfl⟩
  | case3 first rest other others same cancels inductionHypothesis =>
      have found := inductionHypothesis member
      grind
  | case4 first rest other others same keeps inductionHypothesis =>
      rcases List.mem_cons.mp member with rfl | inRest
      · exact Or.inl ⟨first, by simp, rfl⟩
      · have found := inductionHypothesis inRest
        grind
  | case5 first rest other others differ less inductionHypothesis =>
      rcases List.mem_cons.mp member with rfl | inRest
      · exact Or.inl ⟨term, by simp, rfl⟩
      · have found := inductionHypothesis inRest
        grind
  | case6 first rest other others differ less inductionHypothesis =>
      rcases List.mem_cons.mp member with rfl | inRest
      · exact Or.inr ⟨other, by simp, rfl⟩
      · have found := inductionHypothesis inRest
        grind

/-- Monomials below both lists are below their merge. -/
theorem lt_of_mem_mergeTerms
    {combine : K → K → K}
    {firsts seconds : List (Term numVars K)}
    {bound : Monomial numVars}
    (belowFirst : ∀ first ∈ firsts, first.1 < bound)
    (belowSecond : ∀ second ∈ seconds, second.1 < bound) :
    ∀ term ∈ mergeTerms combine firsts seconds, term.1 < bound := by
  intro term member
  rcases exists_of_mem_mergeTerms member with found | found
  · obtain ⟨first, firstMember, same⟩ := found
    exact same ▸ belowFirst first firstMember
  · obtain ⟨second, secondMember, same⟩ := found
    exact same ▸ belowSecond second secondMember

/-- Merging keeps the terms in descending order. -/
theorem pairwise_mergeTerms
    {combine : K → K → K}
    {firsts seconds : List (Term numVars K)}
    (firstsDescend : firsts.Pairwise (fun left right => right.1 < left.1))
    (secondsDescend : seconds.Pairwise (fun left right => right.1 < left.1)) :
    (mergeTerms combine firsts seconds).Pairwise
      (fun left right => right.1 < left.1) := by
  fun_induction mergeTerms combine firsts seconds with
  | case1 others =>
      exact secondsDescend.map _ (fun _ _ less => less)
  | case2 first rest =>
      exact firstsDescend
  | case3 first rest other others same cancels inductionHypothesis =>
      exact inductionHypothesis firstsDescend.of_cons secondsDescend.of_cons
  | case4 first rest other others same keeps inductionHypothesis =>
      have below := (List.pairwise_cons.mp firstsDescend).1
      have otherBelow := (List.pairwise_cons.mp secondsDescend).1
      refine List.Pairwise.cons ?_
        (inductionHypothesis firstsDescend.of_cons secondsDescend.of_cons)
      exact lt_of_mem_mergeTerms (fun _ member => below _ member)
        (fun _ member => same ▸ otherBelow _ member)
  | case5 first rest other others differ less inductionHypothesis =>
      have below := (List.pairwise_cons.mp firstsDescend).1
      have otherBelow := (List.pairwise_cons.mp secondsDescend).1
      refine List.Pairwise.cons ?_
        (inductionHypothesis firstsDescend.of_cons secondsDescend)
      refine lt_of_mem_mergeTerms (fun _ member => below _ member) ?_
      intro second member
      rcases List.mem_cons.mp member with rfl | inOthers
      · exact less
      · exact lt_trans (otherBelow _ inOthers) less
  | case6 first rest other others differ less inductionHypothesis =>
      have greater : first.1 < other.1 :=
        lt_of_le_of_ne (not_lt.mp less) differ
      have below := (List.pairwise_cons.mp firstsDescend).1
      have otherBelow := (List.pairwise_cons.mp secondsDescend).1
      refine List.Pairwise.cons ?_
        (inductionHypothesis firstsDescend secondsDescend.of_cons)
      refine lt_of_mem_mergeTerms ?_ (fun _ member => otherBelow _ member)
      intro one member
      rcases List.mem_cons.mp member with rfl | inRest
      · exact greater
      · exact lt_trans (below _ inRest) greater

/-- Merging keeps coefficients nonzero where combining with zero does. -/
theorem nonzero_mergeTerms
    {combine : K → K → K}
    (combineZero : ∀ value, value ≠ 0 → combine 0 value ≠ 0)
    {firsts seconds : List (Term numVars K)}
    (firstsNonzero : ∀ term ∈ firsts, term.2 ≠ 0)
    (secondsNonzero : ∀ term ∈ seconds, term.2 ≠ 0) :
    ∀ term ∈ mergeTerms combine firsts seconds, term.2 ≠ 0 := by
  fun_induction mergeTerms combine firsts seconds with
  | case1 others =>
      intro term member
      obtain ⟨other, otherMember, rfl⟩ := List.mem_map.mp member
      exact combineZero other.2 (secondsNonzero other otherMember)
  | case2 first rest =>
      exact firstsNonzero
  | case3 first rest other others same cancels inductionHypothesis =>
      exact inductionHypothesis (by grind) (by grind)
  | case4 first rest other others same keeps inductionHypothesis =>
      intro term member
      rcases List.mem_cons.mp member with rfl | inRest
      · exact keeps
      · exact inductionHypothesis (by grind) (by grind) term inRest
  | case5 first rest other others differ less inductionHypothesis =>
      intro term member
      rcases List.mem_cons.mp member with rfl | inRest
      · exact firstsNonzero term (by simp)
      · exact inductionHypothesis (by grind) (by grind) term inRest
  | case6 first rest other others differ less inductionHypothesis =>
      intro term member
      rcases List.mem_cons.mp member with rfl | inRest
      · exact combineZero other.2 (secondsNonzero other (by simp))
      · exact inductionHypothesis (by grind) (by grind) term inRest

/-- `operator+`. -/
instance : Add (MultivariatePolynomial vars K) where
  add left right :=
    { terms := mergeTerms (fun one other => one + other) left.terms right.terms
      descending := pairwise_mergeTerms left.descending right.descending
      nonzero :=
        nonzero_mergeTerms (fun value isNonzero => by simpa using isNonzero)
          left.nonzero right.nonzero }

/-- `operator-`. -/
instance : Sub (MultivariatePolynomial vars K) where
  sub left right :=
    { terms := mergeTerms (fun one other => one - other) left.terms right.terms
      descending := pairwise_mergeTerms left.descending right.descending
      nonzero :=
        nonzero_mergeTerms (fun value isNonzero => by simpa using isNonzero)
          left.nonzero right.nonzero }

/-- `operator-` with one operand. -/
instance : Neg (MultivariatePolynomial vars K) where
  neg poly :=
    { terms := poly.terms.map (fun term => (term.1, -term.2))
      descending := poly.descending.map _ (fun _ _ less => less)
      nonzero := by
        intro term member
        obtain ⟨original, originalMember, rfl⟩ := List.mem_map.mp member
        exact neg_ne_zero.mpr (poly.nonzero original originalMember) }

end Merge

section Collect

variable [CommRing K] [DecidableEq K]

/-- Add each term to the one before it when their monomials agree. -/
def combineFrom
    (last : Term numVars K) :
    List (Term numVars K) → List (Term numVars K)
  | [] => [last]
  | next :: rest =>
      if last.1 = next.1 then
        combineFrom (last.1, last.2 + next.2) rest
      else
        last :: combineFrom next rest

/-- The pass over a list of terms that is sorted already. -/
def combineLike : List (Term numVars K) → List (Term numVars K)
  | [] => []
  | first :: rest => combineFrom first rest

/-- `std::sort` in descending order of the monomials. -/
def sortTerms (raw : List (Term numVars K)) : List (Term numVars K) :=
  raw.insertionSort (fun left right => right.1 ≤ left.1)

/-- Sort raw terms, combine like monomials and erase zero coefficients. -/
def collectTerms (raw : List (Term numVars K)) : List (Term numVars K) :=
  (combineLike (sortTerms raw)).filter (fun term => term.2 ≠ 0)

omit [CommRing K] [DecidableEq K] in
theorem pairwise_sortTerms
    (raw : List (Term numVars K)) :
    (sortTerms raw).Pairwise (fun left right => right.1 ≤ left.1) := by
  have total :
      Std.Total (fun left right : Term numVars K => right.1 ≤ left.1) :=
    ⟨fun left right => le_total right.1 left.1⟩
  have transitive :
      IsTrans (Term numVars K) (fun left right => right.1 ≤ left.1) :=
    ⟨fun _ _ _ first second => le_trans second first⟩
  exact List.pairwise_insertionSort _ raw

omit [DecidableEq K] in
/-- Combining a sorted list starts at its first monomial and descends strictly. -/
theorem pairwise_combineFrom
    {last : Term numVars K}
    {rest : List (Term numVars K)}
    (atMost : ∀ term ∈ rest, term.1 ≤ last.1)
    (sorted : rest.Pairwise (fun left right => right.1 ≤ left.1)) :
    (combineFrom last rest).Pairwise (fun left right => right.1 < left.1) ∧
      ∀ term ∈ combineFrom last rest, term.1 ≤ last.1 := by
  induction rest generalizing last with
  | nil =>
      simp [combineFrom]
  | cons next rest inductionHypothesis =>
      have nextAtMost : next.1 ≤ last.1 := atMost next (by simp)
      have restAtMost := (List.pairwise_cons.mp sorted).1
      by_cases same : last.1 = next.1
      · simp only [combineFrom, if_pos same]
        exact inductionHypothesis
          (fun term member => atMost term (by simp [member])) sorted.of_cons
      · have less : next.1 < last.1 := lt_of_le_of_ne nextAtMost (Ne.symm same)
        have combined := inductionHypothesis restAtMost sorted.of_cons
        simp only [combineFrom, if_neg same]
        constructor
        · exact List.Pairwise.cons
            (fun term member => lt_of_le_of_lt (combined.2 term member) less)
            combined.1
        · intro term member
          rcases List.mem_cons.mp member with isLast | inRest
          · rw [isLast]
          · exact le_trans (combined.2 term inRest) nextAtMost

theorem pairwise_collectTerms
    (raw : List (Term numVars K)) :
    (collectTerms raw).Pairwise (fun left right => right.1 < left.1) := by
  refine List.Pairwise.filter _ ?_
  have sorted := pairwise_sortTerms raw
  cases shape : sortTerms raw with
  | nil =>
      exact List.Pairwise.nil
  | cons first rest =>
      rw [shape] at sorted
      exact (pairwise_combineFrom (List.pairwise_cons.mp sorted).1 sorted.of_cons).1

omit [DecidableEq K] in
/-- Combining terms brings in no monomial. -/
theorem exists_of_mem_combineFrom
    {last term : Term numVars K}
    {rest : List (Term numVars K)}
    (member : term ∈ combineFrom last rest) :
    ∃ original ∈ last :: rest, original.1 = term.1 := by
  induction rest generalizing last with
  | nil =>
      rw [combineFrom, List.mem_singleton] at member
      exact ⟨last, by simp, by rw [member]⟩
  | cons next rest inductionHypothesis =>
      rw [combineFrom] at member
      split at member
      · obtain ⟨original, originalMember, same⟩ := inductionHypothesis member
        rcases List.mem_cons.mp originalMember with isSum | inRest
        · exact ⟨last, by simp, by rw [← same, isSum]⟩
        · exact ⟨original, by simp [inRest], same⟩
      · rcases List.mem_cons.mp member with isLast | inRest
        · exact ⟨last, by simp, by rw [isLast]⟩
        · obtain ⟨original, originalMember, same⟩ := inductionHypothesis inRest
          exact ⟨original, List.mem_cons_of_mem _ originalMember, same⟩

/-- Collecting terms brings in no monomial. -/
theorem exists_of_mem_collectTerms
    {raw : List (Term numVars K)}
    {term : Term numVars K}
    (member : term ∈ collectTerms raw) :
    ∃ original ∈ raw, original.1 = term.1 := by
  have combined := (List.mem_filter.mp member).1
  have fromSorted : ∃ original ∈ sortTerms raw, original.1 = term.1 := by
    cases shape : sortTerms raw with
    | nil =>
        rw [shape] at combined
        cases combined
    | cons first rest =>
        rw [shape] at combined
        exact exists_of_mem_combineFrom combined
  obtain ⟨original, originalMember, same⟩ := fromSorted
  exact ⟨original, (List.perm_insertionSort _ raw).mem_iff.mp originalMember, same⟩

/-- The polynomial of a list of terms in any order. -/
def ofRaw (raw : List (Term numVars K)) :
    MultivariatePolynomial vars K :=
  { terms := collectTerms raw
    descending := pairwise_collectTerms raw
    nonzero := fun _ member => of_decide_eq_true (List.mem_filter.mp member).2 }

/-- `operator*`: all products of terms, collected. -/
instance : Mul (MultivariatePolynomial vars K) where
  mul left right :=
    if left.isZero || right.isZero then
      0
    else
      ofRaw
        (left.terms.flatMap (fun one =>
          right.terms.map (fun other => (one.1 * other.1, one.2 * other.2))))

end Collect

end MultivariatePolynomial

end PolyCore
