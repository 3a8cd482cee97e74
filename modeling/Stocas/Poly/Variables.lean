import Mathlib.Tactic.Ring
import Stocas.Poly.Polynomial

namespace PolyCore

open SymbolTable (Symbol)

/-!
# Single variables of a polynomial

Evaluating a variable keeps the variable list and freezes its exponent at zero;
the coefficients in a variable are polynomials over the list without it.
-/

namespace Monomial

variable {numVars : ℕ}

/-- The monomial with one variable's exponent frozen at zero. -/
def freeze
    (varIndex : Fin numVars)
    (monomial : Monomial numVars) :
    Monomial numVars :=
  ⟨fun index => if index = varIndex then 0 else monomial.exponent index⟩

/-- The monomial over the variable list with one variable removed. -/
def removeVariable
    (varIndex : Fin (numVars + 1))
    (monomial : Monomial (numVars + 1)) :
    Monomial numVars :=
  ⟨varIndex.removeNth monomial.exponent⟩

/-- The monomial over a longer variable list, with exponent zero at the new place. -/
def insertVariable
    (varIndex : Fin (numVars + 1))
    (monomial : Monomial numVars) :
    Monomial (numVars + 1) :=
  ⟨varIndex.insertNth (0 : ℕ) monomial.exponent⟩

/-- The power of a single variable. -/
def single
    (varIndex : Fin numVars)
    (exponent : ℕ) :
    Monomial numVars :=
  ⟨fun index => if index = varIndex then exponent else 0⟩

/-- Removing a variable on which two monomials agree keeps their order. -/
theorem removeVariable_lt
    {varIndex : Fin (numVars + 1)}
    {left right : Monomial (numVars + 1)}
    (agree : left.exponent varIndex = right.exponent varIndex)
    (less : left < right) :
    left.removeVariable varIndex < right.removeVariable varIndex := by
  obtain ⟨index, earlierAgree, indexLess⟩ := less
  have differs : index ≠ varIndex := by
    intro same
    subst index
    exact absurd indexLess (by simp [agree])
  obtain ⟨reduced, isReduced⟩ := Fin.exists_succAbove_eq differs
  subst index
  refine ⟨reduced, ?_, indexLess⟩
  intro earlier before
  exact earlierAgree _ (Fin.strictMono_succAbove varIndex before)

/-- Powers of one variable are ordered by their exponents. -/
theorem single_lt
    {varIndex : Fin numVars}
    {low high : ℕ}
    (less : low < high) :
    single varIndex low < single varIndex high := by
  refine ⟨varIndex, ?_, by simpa [single] using less⟩
  intro earlier before
  simp [single, ne_of_lt before]

/-- Monomials in one variable are ordered by its exponent. -/
theorem exponent_lt_of_lt
    {varIndex : Fin numVars}
    {left right : Monomial numVars}
    (rightElsewhere : ∀ index, index ≠ varIndex → right.exponent index = 0)
    (less : left < right) :
    left.exponent varIndex < right.exponent varIndex := by
  obtain ⟨index, _, indexLess⟩ := less
  by_cases same : index = varIndex
  · exact same ▸ indexLess
  · rw [rightElsewhere index same] at indexLess
    exact absurd indexLess (Nat.not_lt_zero _)

end Monomial

namespace MultivariatePolynomial

variable {numVars : ℕ} {K : Type} [CommRing K] [DecidableEq K]

/-- The loop of `coeff_pow`: repeated squaring. -/
def coeffPowLoop
    (result power : K)
    (remaining : ℕ) :
    K :=
  if remaining = 0 then
    result
  else if remaining % 2 = 1 then
    coeffPowLoop (result * power) (power * power) (remaining / 2)
  else
    coeffPowLoop result (power * power) (remaining / 2)

/-- `coeff_pow`. -/
def coeffPow
    (base : K)
    (exponent : ℕ) :
    K :=
  coeffPowLoop 1 base exponent

omit [DecidableEq K] in
/-- The loop keeps the product of the result and the remaining power. -/
theorem coeffPowLoop_eq
    (result power : K)
    (remaining : ℕ) :
    coeffPowLoop result power remaining = result * power ^ remaining := by
  fun_induction coeffPowLoop result power remaining with
  | case1 result power =>
      simp
  | case2 result power remaining positive odd inductionHypothesis =>
      have halves : remaining = 2 * (remaining / 2) + 1 := by omega
      have unfolded :
          power ^ remaining = power * (power * power) ^ (remaining / 2) := by
        calc
          power ^ remaining = power ^ (2 * (remaining / 2) + 1) := by
            rw [← halves]
          _ = power * (power * power) ^ (remaining / 2) := by
            rw [pow_succ, pow_mul, sq, mul_comm]
      rw [inductionHypothesis, unfolded, mul_assoc]
  | case3 result power remaining positive even inductionHypothesis =>
      have halves : remaining = 2 * (remaining / 2) := by omega
      have unfolded : power ^ remaining = (power * power) ^ (remaining / 2) := by
        calc
          power ^ remaining = power ^ (2 * (remaining / 2)) := by
            rw [← halves]
          _ = (power * power) ^ (remaining / 2) := by
            rw [pow_mul, sq]
      rw [inductionHypothesis, unfolded]

omit [DecidableEq K] in
/-- `coeff_pow` is the power. -/
theorem coeffPow_eq
    (base : K)
    (exponent : ℕ) :
    coeffPow base exponent = base ^ exponent := by
  simp [coeffPow, coeffPowLoop_eq]

/-- `evaluate`: a variable's value is folded into every coefficient. -/
def evaluate
    {vars : Fin numVars → Symbol}
    (poly : MultivariatePolynomial vars K)
    (varIndex : Fin numVars)
    (value : K) :
    MultivariatePolynomial vars K :=
  ofRaw
    (poly.terms.map (fun term =>
      (term.1.freeze varIndex,
        term.2 * coeffPow value (term.1.exponent varIndex))))

/-- `degree_in`: the greatest exponent of a variable, zero if there is none. -/
def degreeIn
    {vars : Fin numVars → Symbol}
    (poly : MultivariatePolynomial vars K)
    (varIndex : Fin numVars) :
    ℕ :=
  poly.terms.foldl
    (fun maxExponent term => max maxExponent (term.1.exponent varIndex)) 0

/-- `leading_coefficient_in`: the coefficient of the variable's greatest power. -/
def leadingCoefficientIn
    {vars : Fin (numVars + 1) → Symbol}
    (poly : MultivariatePolynomial vars K)
    (varIndex : Fin (numVars + 1)) :
    MultivariatePolynomial (varIndex.removeNth vars) K :=
  { terms :=
      (poly.terms.filter
        (fun term => term.1.exponent varIndex = poly.degreeIn varIndex)).map
        (fun term => (term.1.removeVariable varIndex, term.2))
    descending := by
      rw [List.pairwise_map]
      refine (poly.descending.filter _).imp_of_mem ?_
      intro left right leftMember rightMember less
      have leftDegree := of_decide_eq_true (List.mem_filter.mp leftMember).2
      have rightDegree := of_decide_eq_true (List.mem_filter.mp rightMember).2
      exact Monomial.removeVariable_lt (rightDegree.trans leftDegree.symm) less
    nonzero := by
      intro term member
      obtain ⟨whole, wholeMember, rfl⟩ := List.mem_map.mp member
      exact poly.nonzero whole (List.mem_filter.mp wholeMember).1 }

/-- Add a term to the coefficient of its exponent, or start that coefficient. -/
def addToGroup
    {vars : Fin numVars → Symbol}
    (exponent : ℕ)
    (termPoly : MultivariatePolynomial vars K) :
    List (ℕ × MultivariatePolynomial vars K) →
      List (ℕ × MultivariatePolynomial vars K)
  | [] => [(exponent, termPoly)]
  | (seen, group) :: rest =>
      if seen = exponent then
        (seen, group + termPoly) :: rest
      else
        (seen, group) :: addToGroup exponent termPoly rest

/-- The `coefficient_polys` of `content_in`, with their exponents. -/
def coefficientPolys
    {vars : Fin (numVars + 1) → Symbol}
    (poly : MultivariatePolynomial vars K)
    (varIndex : Fin (numVars + 1)) :
    List (ℕ × MultivariatePolynomial (varIndex.removeNth vars) K) :=
  poly.terms.foldl
    (fun groups term =>
      addToGroup (term.1.exponent varIndex)
        (fromTerm (term.1.removeVariable varIndex) term.2) groups)
    []

/-- `insert_missing_variable`. -/
def insertMissingVariable
    {vars : Fin (numVars + 1) → Symbol}
    (varIndex : Fin (numVars + 1))
    (reducedPoly : MultivariatePolynomial (varIndex.removeNth vars) K) :
    MultivariatePolynomial vars K :=
  reducedPoly.terms.foldl
    (fun result term => result + fromTerm (term.1.insertVariable varIndex) term.2)
    0

/-- The variable of a univariate polynomial is the first. -/
instance neZeroOne : NeZero 1 :=
  ⟨Nat.one_ne_zero⟩

/-- `to_univariate`: the polynomial must not depend on any other variable. -/
def toUnivariate
    {vars : Fin numVars → Symbol}
    (poly : MultivariatePolynomial vars K)
    (varIndex : Fin numVars) :
    Except PolyError (MultivariatePolynomial (fun _ : Fin 1 => vars varIndex) K) :=
  if univariate :
      ∀ term ∈ poly.terms, ∀ index, index ≠ varIndex → term.1.exponent index = 0 then
    .ok
      { terms :=
          poly.terms.map
            (fun term => (Monomial.single 0 (term.1.exponent varIndex), term.2))
        descending := by
          rw [List.pairwise_map]
          refine poly.descending.imp_of_mem ?_
          intro left right leftMember _ less
          exact Monomial.single_lt
            (Monomial.exponent_lt_of_lt (univariate left leftMember) less)
        nonzero := by
          intro term member
          obtain ⟨whole, wholeMember, rfl⟩ := List.mem_map.mp member
          exact poly.nonzero whole wholeMember }
  else
    .error
      (.logicError
        "MultivariatePolynomial::to_univariate: depends on more than one variable")

/-- `embed_univariate`: a univariate polynomial in a longer variable list. -/
def embedUnivariate
    {single : Fin 1 → Symbol}
    {vars : Fin numVars → Symbol}
    (varIndex : Fin numVars)
    (univariate : MultivariatePolynomial single K) :
    MultivariatePolynomial vars K :=
  { terms :=
      univariate.terms.map
        (fun term => (Monomial.single varIndex (term.1.exponent 0), term.2))
    descending := by
      rw [List.pairwise_map]
      refine univariate.descending.imp ?_
      intro left right less
      exact Monomial.single_lt
        (Monomial.exponent_lt_of_lt
          (fun index other => absurd (Subsingleton.elim index 0) other) less)
    nonzero := by
      intro term member
      obtain ⟨whole, wholeMember, rfl⟩ := List.mem_map.mp member
      exact univariate.nonzero whole wholeMember }

end MultivariatePolynomial

end PolyCore
