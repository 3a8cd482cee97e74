import Stocas.Poly.MachinePolynomial
import Stocas.Poly.RationalGcd

namespace PolyCore

open MultivariatePolynomial
open SymbolTable (Symbol)

/-!
# Factorization over a prime field

Yun's decomposition splits a polynomial by multiplicities, a second loop splits each
part by the degrees of its factors, and random polynomials split what is left.  The
variable list has one variable by its type.
-/

/-- What `factor_univariate_finite_field` throws. -/
inductive FactorizationError where
  /-- `std::invalid_argument` -/
  | invalidArgument (message : String)
  /-- thrown by the arithmetic of polynomials, or `std::runtime_error` -/
  | polynomial (error : PolyError)
  /-- the model's bound on the rounds of a loop -/
  | unfinished
deriving DecidableEq

/-- A step of polynomial arithmetic. -/
def arithmetic {α : Type} : Except PolyError α → Except FactorizationError α
  | .error error => .error (.polynomial error)
  | .ok result => .ok result

section Squarefree

variable {single : Fin 1 → Symbol} {K : Type} [Field K] [DecidableEq K]

/-- A value added to itself, as often as the exponent says. -/
def addRepeatedly (value : K) : ℕ → K
  | 0 => 0
  | count + 1 => addRepeatedly value count + value

/-- `univariate_derivative`. -/
def univariateDerivative
    (f : MultivariatePolynomial single K) :
    MultivariatePolynomial single K :=
  f.terms.foldl
    (fun result term =>
      let exponent := term.1.exponent 0
      if exponent = 0 then
        result
      else
        let scaled := addRepeatedly term.2 exponent
        if scaled = 0 then
          result
        else
          result + fromTerm ⟨fun _ => exponent - 1⟩ scaled)
    0

variable [FieldErrors K]

/-- The loop of `squarefree_decomposition`, for at most the given number of rounds. -/
def squarefreeLoop :
    (rounds i : ℕ) →
    (b d : MultivariatePolynomial single K) →
    Except FactorizationError (List (MultivariatePolynomial single K × ℕ))
  | rounds, i, b, d =>
      if b.degreeIn 0 > 0 then
        match rounds with
        | 0 => .error .unfinished
        | rounds + 1 => do
            let aI ← arithmetic (univariateGcd b d)
            let (nextB, _) ← arithmetic (univariateDivRem b aI)
            let (c, _) ← arithmetic (univariateDivRem d aI)
            let rest ←
              squarefreeLoop rounds (i + 1) nextB (c - univariateDerivative nextB)
            if aI.degreeIn 0 > 0 then
              .ok ((aI, i) :: rest)
            else
              .ok rest
      else
        .ok []

/-- `squarefree_decomposition`: Yun's algorithm, for at most the given number of rounds. -/
def squarefreeDecomposition
    (rounds : ℕ)
    (fMonic : MultivariatePolynomial single K) :
    Except FactorizationError (List (MultivariatePolynomial single K × ℕ)) := do
  let fPrime := univariateDerivative fMonic
  let a0 ← arithmetic (univariateGcd fMonic fPrime)
  let (b, _) ← arithmetic (univariateDivRem fMonic a0)
  let (c, _) ← arithmetic (univariateDivRem fPrime a0)
  squarefreeLoop rounds 1 b (c - univariateDerivative b)

/-- The loop of `poly_powmod`. -/
def polyPowmodLoop
    (modulus result reducedBase : MultivariatePolynomial single K)
    (exponent : ℤ) :
    Except PolyError (MultivariatePolynomial single K) :=
  if _positive : exponent > 0 then do
    let nextResult ←
      if exponent.tmod 2 = 0 then
        .ok result
      else do
        let (_, remainder) ←
          univariateDivRem (result.wrappedMul reducedBase) modulus
        .ok remainder
    let (_, nextBase) ←
      univariateDivRem (reducedBase.wrappedMul reducedBase) modulus
    polyPowmodLoop modulus nextResult nextBase (exponent.tdiv 2)
  else
    .ok result
termination_by exponent.toNat
decreasing_by
  have positive : 0 < exponent := by assumption
  rw [Int.tdiv_eq_ediv_of_nonneg positive.le]
  omega

/--
`poly_powmod`.  Its products are the only ones of the algorithm whose degree can pass
the degrees of the polynomials at hand, and so leave the range of an exponent.
-/
def polyPowmod
    (base : MultivariatePolynomial single K)
    (exponent : ℤ)
    (modulus : MultivariatePolynomial single K) :
    Except PolyError (MultivariatePolynomial single K) := do
  let (_, reducedBase) ← univariateDivRem base modulus
  polyPowmodLoop modulus (constant 1) reducedBase exponent

/-- `bigint_pow`. -/
def bigintPow (base : ℤ) (exponent : ℕ) : ℤ :=
  coeffPow base exponent

end Squarefree

section Prime

variable (prime : ℕ) [Fact prime.Prime]
variable {single : Fin 1 → Symbol}

/-- `BigInt(static_cast<std::int64_t>(prime))`. -/
def primeBig : ℤ :=
  Int.bmod prime (2 ^ 64)

/-- The polynomial `x`. -/
def xPoly : MultivariatePolynomial single (ZMod prime) :=
  fromTerm ⟨fun _ => 1⟩ 1

/--
The loop of `distinct_degree_split`, for at most the given number of rounds.  The
degree `d` and its double are computed in 32 bits.
-/
def distinctDegreeLoop :
    (rounds d : ℕ) →
    (remaining : MultivariatePolynomial single (ZMod prime)) →
    Except FactorizationError (List (ℕ × MultivariatePolynomial single (ZMod prime)))
  | rounds, d, remaining =>
      if remaining.degreeIn 0 ≥ 2 * d % exponentModulus then
        match rounds with
        | 0 => .error .unfinished
        | rounds + 1 => do
            let frobenius ← arithmetic
              (polyPowmod (xPoly prime) (bigintPow (primeBig prime) d) remaining)
            let common ← arithmetic (univariateGcd remaining (frobenius - xPoly prime))
            let g ← arithmetic (monicNormalize common)
            if g.degreeIn 0 > 0 then do
              let (quotient, _) ← arithmetic (univariateDivRem remaining g)
              let rest ←
                distinctDegreeLoop rounds ((d + 1) % exponentModulus) quotient
              .ok ((d, g) :: rest)
            else
              distinctDegreeLoop rounds ((d + 1) % exponentModulus) remaining
      else if remaining.degreeIn 0 > 0 then
        .ok [(remaining.degreeIn 0, remaining)]
      else
        .ok []

/-- `distinct_degree_split`. -/
def distinctDegreeSplit
    (f : MultivariatePolynomial single (ZMod prime)) :
    Except FactorizationError (List (ℕ × MultivariatePolynomial single (ZMod prime))) :=
  distinctDegreeLoop prime (exponentModulus + 1) 1 f

/-- `std::mt19937_64` with `std::uniform_int_distribution` over the residues. -/
structure RandomEngine where
  State : Type
  seeded : ℕ → State
  draw : State → Fin prime × State

/-- `kMaxSplitAttempts`. -/
def kMaxSplitAttempts : ℕ := 200

variable {prime}
variable (engine : RandomEngine prime)

/-- The random polynomial `r` below the given degree. -/
def randomPolynomial
    (degree : ℕ)
    (rng : engine.State) :
    MultivariatePolynomial single (ZMod prime) × engine.State :=
  (List.range degree).foldl
    (fun (r, rng) e =>
      let (coeffValue, next) := engine.draw rng
      if coeffValue.val = 0 then
        (r, next)
      else
        (r + fromTerm ⟨fun _ => e⟩ (coeffValue.val : ZMod prime), next))
    (0, rng)

/-- The body of an attempt with a nonzero random polynomial: the divisor it gives. -/
def splitCandidate
    (exponent : ℤ)
    (poly r : MultivariatePolynomial single (ZMod prime)) :
    Except PolyError (MultivariatePolynomial single (ZMod prime)) := do
  let g ← monicNormalize (← univariateGcd poly r)
  if g.degreeIn 0 = 0 then do
    let power ← polyPowmod r exponent poly
    monicNormalize (← univariateGcd poly (power - constant 1))
  else
    .ok g

/-- The attempts to split a polynomial: the proper divisor found and the quotient. -/
def splitAttempts
    (exponent : ℤ)
    (poly : MultivariatePolynomial single (ZMod prime)) :
    (attempts : ℕ) →
    (rng : engine.State) →
    Except FactorizationError
      ((MultivariatePolynomial single (ZMod prime) ×
        MultivariatePolynomial single (ZMod prime)) × engine.State)
  | 0, _ =>
      .error (.polynomial (.runtimeError
        ("poly_core::equal_degree_split: exhausted kMaxSplitAttempts without " ++
          "finding a splitting polynomial")))
  | attempts + 1, rng =>
      let (r, next) := randomPolynomial engine (poly.degreeIn 0) rng
      if r.isZero then
        splitAttempts exponent poly attempts next
      else do
        let g ← arithmetic (splitCandidate exponent poly r)
        if g.degreeIn 0 > 0 ∧ g.degreeIn 0 < poly.degreeIn 0 then do
          let (quotient, _) ← arithmetic (univariateDivRem poly g)
          .ok ((g, quotient), next)
        else
          splitAttempts exponent poly attempts next

/--
The loop of `equal_degree_split`, for at most the given number of rounds; the last
of `pending` comes first.
-/
def equalDegreeLoop
    (exponent : ℤ)
    (d : ℕ) :
    (rounds : ℕ) →
    (pending result : List (MultivariatePolynomial single (ZMod prime))) →
    (rng : engine.State) →
    Except FactorizationError
      (List (MultivariatePolynomial single (ZMod prime)) × engine.State)
  | _, [], result, rng => .ok (result, rng)
  | 0, _ :: _, _, _ => .error .unfinished
  | rounds + 1, poly :: pending, result, rng =>
      if poly.degreeIn 0 = d then
        equalDegreeLoop exponent d rounds pending (result ++ [poly]) rng
      else do
        let ((g, quotient), next) ←
          splitAttempts engine exponent poly kMaxSplitAttempts rng
        equalDegreeLoop exponent d rounds (quotient :: g :: pending) result next

/-- `equal_degree_split`. -/
def equalDegreeSplit
    (f : MultivariatePolynomial single (ZMod prime))
    (d : ℕ)
    (rng : engine.State) :
    Except FactorizationError
      (List (MultivariatePolynomial single (ZMod prime)) × engine.State) :=
  if prime = 2 then
    .error (.invalidArgument "poly_core::equal_degree_split: requires an odd prime")
  else
    let exponent := (bigintPow (primeBig prime) d - 1).tdiv 2
    equalDegreeLoop engine exponent d (2 * f.degreeIn 0 + 1) [f] [] rng

/-- The loop of `factor_squarefree` over the groups of one degree. -/
def factorGroups :
    (groups : List (ℕ × MultivariatePolynomial single (ZMod prime))) →
    (rng : engine.State) →
    Except FactorizationError
      (List (MultivariatePolynomial single (ZMod prime)) × engine.State)
  | [], rng => .ok ([], rng)
  | (degree, group) :: groups, rng => do
      let (factors, next) ← equalDegreeSplit engine group degree rng
      let (rest, last) ← factorGroups groups next
      .ok (factors ++ rest, last)

/-- `factor_squarefree`. -/
def factorSquarefree
    (f : MultivariatePolynomial single (ZMod prime))
    (rng : engine.State) :
    Except FactorizationError
      (List (MultivariatePolynomial single (ZMod prime)) × engine.State) := do
  let groups ← distinctDegreeSplit prime f
  factorGroups engine groups rng

/-- `FactorTerm`. -/
structure FactorTerm (single : Fin 1 → Symbol) (prime : ℕ) [Fact prime.Prime] where
  factor : MultivariatePolynomial single (ZMod prime)
  multiplicity : ℕ

/-- `Factorization`. -/
structure Factorization (single : Fin 1 → Symbol) (prime : ℕ) [Fact prime.Prime] where
  leadingCoefficient : ZMod prime
  factors : List (FactorTerm single prime)

/-- The loop of `factor_univariate_finite_field` over the parts of one multiplicity. -/
def factorParts :
    (parts : List (MultivariatePolynomial single (ZMod prime) × ℕ)) →
    (rng : engine.State) →
    Except FactorizationError (List (FactorTerm single prime))
  | [], _ => .ok []
  | (group, multiplicity) :: parts, rng => do
      let (factors, next) ← factorSquarefree engine group rng
      let rest ← factorParts parts next
      .ok (factors.map (fun factor => ⟨factor, multiplicity⟩) ++ rest)

/-- `factor_univariate_finite_field`. -/
def factorUnivariateFiniteField
    (f : MultivariatePolynomial single (ZMod prime))
    (rngSeed : ℕ) :
    Except FactorizationError (Factorization single prime) :=
  match f.terms with
  | [] =>
      .error (.invalidArgument
        ("poly_core::factor_univariate_finite_field: cannot factor the zero " ++
          "polynomial"))
  | leading :: _ =>
      if prime = 2 then
        .error (.invalidArgument
          "poly_core::factor_univariate_finite_field: requires an odd prime")
      else do
        let monicF ← arithmetic (monicNormalize f)
        let parts ← squarefreeDecomposition prime monicF
        let factors ← factorParts engine parts (engine.seeded rngSeed)
        .ok ⟨leading.2, factors⟩

end Prime

end PolyCore
