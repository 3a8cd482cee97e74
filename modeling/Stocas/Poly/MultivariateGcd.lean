import Mathlib.Data.List.FinRange
import Stocas.Poly.Division

namespace PolyCore

open Outcome (firstSuccess)
open SymbolTable (Symbol)

/-!
# The multivariate gcd over a field

Dense evaluation and interpolation.  The other variables of the primitive parts
are evaluated one after the other until a univariate gcd is left, samples are
scaled to a predicted leading coefficient, and the interpolated candidate is
returned only when it divides both inputs.
-/

namespace MultivariatePolynomial

variable {numVars : ℕ} {K : Type} [Field K] [DecidableEq K] [FieldErrors K]

/-- `field_element_from_index`: the sum of that many ones. -/
def fieldElementFromIndex : ℕ → K
  | 0 => 0
  | index + 1 => fieldElementFromIndex index + 1

/-- `monic_normalize`. -/
def monicNormalize
    {vars : Fin numVars → Symbol}
    (poly : MultivariatePolynomial vars K) :
    Except PolyError (MultivariatePolynomial vars K) :=
  match poly.terms with
  | [] => .ok poly
  | leading :: _ => do
      let inverse ← fieldInv leading.2
      .ok (poly * constant inverse)

/-- The inner loop of `lagrange_interpolate`: one basis polynomial and its value. -/
def lagrangeBasis
    {vars : Fin numVars → Symbol}
    (varIndex : Fin numVars)
    (points : List K)
    (position : ℕ)
    (point : K) :
    MultivariatePolynomial vars K × K :=
  points.zipIdx.foldl
    (fun (basis, denominator) (other, otherPosition) =>
      if otherPosition = position then
        (basis, denominator)
      else
        (basis * (fromTerm (Monomial.single varIndex 1) 1 - constant other),
          denominator * (point - other)))
    (constant 1, 1)

/-- `lagrange_interpolate`, on points paired with their samples. -/
def lagrangeInterpolate
    {vars : Fin numVars → Symbol}
    (varIndex : Fin numVars)
    (samples : List (K × MultivariatePolynomial vars K)) :
    Except PolyError (MultivariatePolynomial vars K) :=
  samples.zipIdx.foldlM
    (fun result ((point, sample), position) => do
      let (basis, denominator) :=
        lagrangeBasis varIndex (samples.map Prod.fst) position point
      let inverse ← fieldInv denominator
      .ok (result + sample * (basis * constant inverse)))
    0

/-- `kMaxEliminationAttempts`. -/
def kMaxEliminationAttempts : ℕ := 8

/-- `kMaxTopLevelAttempts`. -/
def kMaxTopLevelAttempts : ℕ := 5

/-- The samples at a list of points, or none when some point is unlucky. -/
def collectSamples
    {vars : Fin numVars → Symbol}
    (sampleAt : K → Except PolyError (MultivariatePolynomial vars K)) :
    List K → Except PolyError (Option (List (K × MultivariatePolynomial vars K)))
  | [] => .ok (some [])
  | point :: rest =>
      match sampleAt point with
      | .error .unluckyPoint => .ok none
      | .error error => .error error
      | .ok sample => do
          match ← collectSamples sampleAt rest with
          | none => .ok none
          | some samples => .ok (some ((point, sample) :: samples))

/-- One attempt: interpolate, and compare with the sample at the check point. -/
def eliminationAttempt
    {vars : Fin numVars → Symbol}
    (varIndex : Fin numVars)
    (numPoints : ℕ)
    (sampleAt : K → Except PolyError (MultivariatePolynomial vars K))
    (offset : ℕ) :
    Except PolyError (Option (MultivariatePolynomial vars K)) := do
  let points :=
    (List.range (numPoints + 1)).map (fun i => fieldElementFromIndex (offset + i))
  match ← collectSamples sampleAt points with
  | none => .ok none
  | some samples => do
      let candidate ← lagrangeInterpolate varIndex (samples.take numPoints)
      match samples[numPoints]? with
      | none => .error .outOfBounds
      | some (checkPoint, checkSample) =>
          if candidate.evaluate varIndex checkPoint = checkSample then
            .ok (some candidate)
          else
            .ok none

/--
`gcd_eliminate`.  The list holds `other_var_indices[pos..]`, each variable given by
its place `reduced_index` among the variables other than the main one.
-/
def gcdEliminate
    {vars : Fin (numVars + 1) → Symbol}
    (mainVarIndex : Fin (numVars + 1))
    (degreeBounds : Fin (numVars + 1) → ℕ) :
    List (Fin numVars) →
      (a b : MultivariatePolynomial vars K) →
      (expectedLeadingCoeff :
        MultivariatePolynomial (mainVarIndex.removeNth vars) K) →
      (pointSeed : ℕ) →
      Except PolyError (MultivariatePolynomial vars K)
  | [], a, b, expectedLeadingCoeff, _ =>
      match expectedLeadingCoeff.terms with
      | [] => .error .unluckyPoint
      | target :: _ => do
          let univariateA ← a.toUnivariate mainVarIndex
          let univariateB ← b.toUnivariate mainVarIndex
          let gcdUnivariate ← univariateGcd univariateA univariateB
          if gcdUnivariate.isZero then
            .error .unluckyPoint
          else
            .ok (embedUnivariate mainVarIndex (gcdUnivariate * constant target.2))
  | reducedIndex :: rest, a, b, expectedLeadingCoeff, pointSeed =>
      let varIndex := mainVarIndex.succAbove reducedIndex
      let numPoints := degreeBounds varIndex + 1
      firstSuccess
        (.domainError
          ("poly_core: unable to find a lucky evaluation point set for " ++
            "multivariate GCD interpolation"))
        (fun attempt =>
          -- never include 0
          let offset := pointSeed + attempt * (numPoints + 1) + 1
          eliminationAttempt varIndex numPoints
            (fun point =>
              gcdEliminate mainVarIndex degreeBounds rest
                (a.evaluate varIndex point) (b.evaluate varIndex point)
                (expectedLeadingCoeff.evaluate reducedIndex point) offset)
            offset)
        (List.range kMaxEliminationAttempts)

/-- `content_in`, with the gcd over the variable list without the variable. -/
def contentIn
    {vars : Fin (numVars + 1) → Symbol}
    (varIndex : Fin (numVars + 1))
    (gcd :
      (a b : MultivariatePolynomial (varIndex.removeNth vars) K) →
        Except PolyError (MultivariatePolynomial (varIndex.removeNth vars) K))
    (poly : MultivariatePolynomial vars K) :
    Except PolyError (MultivariatePolynomial (varIndex.removeNth vars) K) :=
  match poly.coefficientPolys varIndex with
  | [] => .error .outOfBounds
  | first :: rest => do
      let result ← rest.foldlM (fun result group => gcd result group.2) first.2
      monicNormalize result

/-- `catch (const std::domain_error&)`: the attempt has no result. -/
def catchDomainError
    {α : Type} :
    Except PolyError (Option α) → Except PolyError (Option α)
  | .error (.domainError _) => .ok none
  | outcome => outcome

/-- A candidate from one point set, returned if it divides both primitive parts. -/
def topLevelAttempt
    {vars : Fin (numVars + 1) → Symbol}
    (primitiveA primitiveB liftedContentGcd : MultivariatePolynomial vars K)
    (expectedLeadingCoeff : MultivariatePolynomial (Fin.removeNth 0 vars) K)
    (attempt : ℕ) :
    Except PolyError (Option (MultivariatePolynomial vars K)) :=
  catchDomainError do
    let degreeBounds := fun index =>
      min (primitiveA.degreeIn index) (primitiveB.degreeIn index)
    let candidate ←
      gcdEliminate 0 degreeBounds (List.finRange numVars) primitiveA primitiveB
        expectedLeadingCoeff (attempt * 1000)
    let primitiveGcd ← monicNormalize candidate
    let (_, remainderA) ← multivariateDivRem primitiveA primitiveGcd
    if remainderA.isZero then
      let (_, remainderB) ← multivariateDivRem primitiveB primitiveGcd
      if remainderB.isZero then
        let result ← monicNormalize (liftedContentGcd * primitiveGcd)
        .ok (some result)
      else
        .ok none
    else
      .ok none

/-- The inputs that `finite_field_multivariate_gcd` answers without a computation. -/
def unlessZero
    {vars : Fin numVars → Symbol}
    (a b : MultivariatePolynomial vars K)
    (otherwise : Except PolyError (MultivariatePolynomial vars K)) :
    Except PolyError (MultivariatePolynomial vars K) :=
  if a.isZero then
    monicNormalize b
  else if b.isZero then
    monicNormalize a
  else
    otherwise

/-- `finite_field_multivariate_gcd` in one variable. -/
def gcdOfUnivariate
    {vars : Fin 1 → Symbol}
    (a b : MultivariatePolynomial vars K) :
    Except PolyError (MultivariatePolynomial vars K) := do
  let univariateA ← a.toUnivariate 0
  let univariateB ← b.toUnivariate 0
  let gcdUnivariate ← univariateGcd univariateA univariateB
  .ok (embedUnivariate 0 gcdUnivariate)

/-- `finite_field_multivariate_gcd` in several variables, from the gcd in one less. -/
def gcdByElimination
    {vars : Fin (numVars + 1) → Symbol}
    (gcd :
      (a b : MultivariatePolynomial (Fin.removeNth 0 vars) K) →
        Except PolyError (MultivariatePolynomial (Fin.removeNth 0 vars) K))
    (a b : MultivariatePolynomial vars K) :
    Except PolyError (MultivariatePolynomial vars K) := do
  let contentA ← contentIn 0 gcd a
  let contentB ← contentIn 0 gcd b
  let contentGcd ← gcd contentA contentB
  let (primitiveA, _) ← multivariateDivRem a (insertMissingVariable 0 contentA)
  let (primitiveB, _) ← multivariateDivRem b (insertMissingVariable 0 contentB)
  let expectedLeadingCoeff ←
    gcd (primitiveA.leadingCoefficientIn 0) (primitiveB.leadingCoefficientIn 0)
  firstSuccess
    (.domainError
      ("poly_core::finite_field_multivariate_gcd: unable to find a verified gcd " ++
        "after exhausting kMaxTopLevelAttempts point sets"))
    (topLevelAttempt primitiveA primitiveB (insertMissingVariable 0 contentGcd)
      expectedLeadingCoeff)
    (List.range kMaxTopLevelAttempts)

/--
`finite_field_multivariate_gcd` in `otherVars + 1` variables.  The recursion drops
the main variable, so it ends at a univariate gcd.
-/
def finiteFieldMultivariateGcd :
    (otherVars : ℕ) →
      {vars : Fin (otherVars + 1) → Symbol} →
      (a b : MultivariatePolynomial vars K) →
      Except PolyError (MultivariatePolynomial vars K)
  | 0, _, a, b => unlessZero a b (gcdOfUnivariate a b)
  | otherVars + 1, _, a, b =>
      unlessZero a b (gcdByElimination (finiteFieldMultivariateGcd otherVars) a b)

end MultivariatePolynomial

end PolyCore
