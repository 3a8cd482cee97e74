import Stocas.Poly.ConversionValue
import Stocas.Poly.MachineGcd

namespace PolyCore

open AtomCore (AtomTree)
open MachinePolynomial
  (GcdCandidate constant rationalMultivariateGcd rationalMultivariateGcd_one)
open Outcome (bind_eq_ok mapError_eq_ok)
open SymbolTable (Symbol)

/-!
# From expressions to rational functions

`atom_to_rational_polynomial` goes through an expression as `atom_to_polynomial` does,
with rational functions instead of polynomials and with negative exponents.
-/

/-- What the conversion throws. -/
inductive RationalConversionError where
  /-- an exception of the conversion itself -/
  | conversion (error : ConversionError)
  /-- an exception of the operators of rational functions -/
  | arithmetic (error : PolyError)
deriving DecidableEq

/-- The members of a `RationalPolynomial`, whatever gcd its constructor has used. -/
structure RationalMembers
    {numVars : ℕ}
    (vars : Fin numVars → Symbol) where
  numerator : MachinePolynomial vars ℚ
  denominator : MachinePolynomial vars ℚ

variable {numVars : ℕ} {vars : Fin numVars → Symbol}

namespace RationalMembers

/-- `from_polynomial`. -/
def fromPolynomial (numerator : MachinePolynomial vars ℚ) : RationalMembers vars where
  numerator := numerator
  denominator := constant 1

/-- `is_zero`. -/
def isZero (value : RationalMembers vars) : Bool :=
  value.numerator.isZero

variable (gcdCandidate : GcdCandidate vars)

/-- The constructor of `RationalPolynomial`. -/
def construct
    (numerator denominator : MachinePolynomial vars ℚ) :
    Except PolyError (RationalMembers vars) := do
  let (numerator, denominator) ←
    lowestTerms (rationalMultivariateGcd gcdCandidate) numerator denominator
  .ok { numerator := numerator, denominator := denominator }

/-- `operator+`. -/
def add (left right : RationalMembers vars) : Except PolyError (RationalMembers vars) :=
  construct gcdCandidate
    (left.numerator * right.denominator + right.numerator * left.denominator)
    (left.denominator * right.denominator)

/-- `operator*`. -/
def mul (left right : RationalMembers vars) : Except PolyError (RationalMembers vars) :=
  construct gcdCandidate
    (left.numerator * right.numerator) (left.denominator * right.denominator)

end RationalMembers

/-- Where the gcd meets its contract, the constructor is that of the class in lowest
terms. -/
theorem RationalPolynomial.members_construct
    {gcdCandidate : GcdCandidate vars}
    {gcd : ReducingGcd vars}
    (isGcd : gcd.run = rationalMultivariateGcd gcdCandidate)
    (numerator denominator : MachinePolynomial vars ℚ) :
    (RationalPolynomial.construct gcd numerator denominator).map
        (fun value => RationalMembers.mk value.numerator value.denominator) =
      RationalMembers.construct gcdCandidate numerator denominator := by
  rw [RationalPolynomial.construct, RationalMembers.construct, ← isGcd]
  split
  · rename_i failed
    simp only [failed, Except.map, Outcome.error_bind]
  · rename_i computed
    simp only [computed, Except.map, Outcome.ok_bind]

section Conversion

variable (gcdCandidate : GcdCandidate vars)

/-- The exponent of a power, if it is an integer leaf: whether it is negative, and its
magnitude. -/
def integerExponent (exponent : AtomTree) : Except ConversionError (Bool × ℕ) :=
  match exponent with
  | .num value =>
      if value.den ≠ 1 then
        .error
          (.invalidArgument
            ("poly_core::atom_to_rational_polynomial: Pow exponent must be an " ++
              "integer Num"))
      else do
        let negative := decide (value.num < 0)
        let magnitude := if negative then -value.num else value.num
        let exponentValue ← bigintToExponent magnitude
        .ok (negative, exponentValue)
  | _ =>
      .error
        (.invalidArgument
          ("poly_core::atom_to_rational_polynomial: Pow exponent must be an " ++
            "integer Num"))

/-- The loop of a power: `exponent` products by the base. -/
def rationalPowerLoop
    (base result : RationalMembers vars) :
    ℕ → Except PolyError (RationalMembers vars)
  | 0 => .ok result
  | remaining + 1 => do
      let product ← RationalMembers.mul gcdCandidate result base
      rationalPowerLoop base product remaining

/-- What a negative exponent does at the end of a power. -/
def invertPower
    (negative : Bool)
    (result : RationalMembers vars) :
    Except PolyError (RationalMembers vars) :=
  if negative then
    if result.isZero then
      .error
        (.domainError
          ("poly_core::atom_to_rational_polynomial: negative exponent applied to a " ++
            "zero base"))
    else
      RationalMembers.construct gcdCandidate result.denominator result.numerator
  else
    .ok result

mutual

/-- `convert_rational`. -/
def convertRational :
    AtomTree → Except RationalConversionError (RationalMembers vars)
  | .num value => .ok (.fromPolynomial (.constant value))
  | .var symbol => do
      let index ← (findVariable vars symbol).mapError .conversion
      .ok (.fromPolynomial (.fromTerm (.single index 1) (fits_variable index) 1))
  | .add terms => convertRationalTerms (.fromPolynomial 0) terms
  | .mul factors => convertRationalFactors (.fromPolynomial (.constant 1)) factors
  | .pow base exponent => do
      let baseRational ← convertRational base
      let (negative, exponentValue) ← (integerExponent exponent).mapError .conversion
      let power ←
        (rationalPowerLoop gcdCandidate baseRational (.fromPolynomial (.constant 1))
          exponentValue).mapError .arithmetic
      (invertPower gcdCandidate negative power).mapError .arithmetic
  | .func _ _ =>
      .error
        (.conversion
          (.invalidArgument
            ("poly_core::atom_to_rational_polynomial: function calls are not " ++
              "representable as a polynomial")))

/-- The loop over the terms of a sum. -/
def convertRationalTerms
    (result : RationalMembers vars) :
    List AtomTree → Except RationalConversionError (RationalMembers vars)
  | [] => .ok result
  | term :: rest => do
      let termRational ← convertRational term
      let sum ← (RationalMembers.add gcdCandidate result termRational).mapError .arithmetic
      convertRationalTerms sum rest

/-- The loop over the factors of a product. -/
def convertRationalFactors
    (result : RationalMembers vars) :
    List AtomTree → Except RationalConversionError (RationalMembers vars)
  | [] => .ok result
  | factor :: rest => do
      let factorRational ← convertRational factor
      let product ←
        (RationalMembers.mul gcdCandidate result factorRational).mapError .arithmetic
      convertRationalFactors product rest

end

/-- `atom_to_rational_polynomial`. -/
def atomToRationalPolynomial (atom : AtomTree) :
    Except RationalConversionError (RationalMembers vars) :=
  convertRational gcdCandidate atom

end Conversion

namespace RationalMembers

variable {gcdCandidate : GcdCandidate vars}

/-- Over the denominator one the constructor changes nothing, whatever gcd it finds. -/
theorem construct_one
    {numerator : MachinePolynomial vars ℚ}
    {result : RationalMembers vars}
    (returned : construct gcdCandidate numerator (constant 1) = .ok result) :
    result = fromPolynomial numerator := by
  obtain ⟨members, reduced, isResult⟩ := bind_eq_ok.mp returned
  have computed := reduced
  rw [lowestTerms, if_neg (MachinePolynomial.constant_not_isZero one_ne_zero)] at computed
  obtain ⟨common, found, _⟩ := bind_eq_ok.mp computed
  obtain ⟨value, nonzero, rfl⟩ := rationalMultivariateGcd_one found
  rw [lowestTerms_one nonzero found, Except.ok.injEq] at reduced
  subst reduced
  cases isResult
  rfl

theorem add_fromPolynomial
    {left right : MachinePolynomial vars ℚ}
    {result : RationalMembers vars}
    (returned :
      add gcdCandidate (fromPolynomial left) (fromPolynomial right) = .ok result) :
    result = fromPolynomial (left + right) := by
  have laws : MachinePolynomial.RingLaws vars ℚ := MachinePolynomial.ringLaws
  simp only [add, fromPolynomial, laws.mul_one] at returned
  exact construct_one returned

theorem mul_fromPolynomial
    {left right : MachinePolynomial vars ℚ}
    {result : RationalMembers vars}
    (returned :
      mul gcdCandidate (fromPolynomial left) (fromPolynomial right) = .ok result) :
    result = fromPolynomial (left * right) := by
  have laws : MachinePolynomial.RingLaws vars ℚ := MachinePolynomial.ringLaws
  simp only [mul, fromPolynomial, laws.mul_one] at returned
  exact construct_one returned

end RationalMembers

section Agreement

open RationalMembers (add_fromPolynomial fromPolynomial mul_fromPolynomial)

variable {gcdCandidate : GcdCandidate vars}

/-- An exponent that the polynomial path accepts is accepted as one that is not
negative. -/
theorem integerExponent_of_checkedExponent
    {exponent : AtomTree}
    {power : ℕ}
    (accepted : checkedExponent exponent = .ok power) :
    integerExponent exponent = .ok (false, power) := by
  cases exponent with
  | num value =>
      rw [checkedExponent] at accepted
      by_cases integral : value.den ≠ 1
      · rw [if_pos integral] at accepted
        cases accepted
      · rw [if_neg integral] at accepted
        by_cases negative : value.num < 0
        · rw [if_pos negative] at accepted
          cases accepted
        · rw [if_neg negative] at accepted
          rw [integerExponent, if_neg integral]
          simp [negative, accepted]
  | var symbol =>
      cases accepted
  | add terms =>
      cases accepted
  | mul factors =>
      cases accepted
  | pow base exponent =>
      cases accepted
  | func head arguments =>
      cases accepted

/-- Repeated products of polynomials. -/
theorem rationalPowerLoop_agrees
    {base result : MachinePolynomial vars ℚ}
    {exponent : ℕ}
    {power : RationalMembers vars}
    (returned :
      rationalPowerLoop gcdCandidate (fromPolynomial base) (fromPolynomial result)
        exponent = .ok power) :
    power = fromPolynomial (powerLoop base result exponent) := by
  induction exponent generalizing result with
  | zero =>
      cases returned
      rfl
  | succ remaining inductionHypothesis =>
      obtain ⟨product, multiplied, returned⟩ := bind_eq_ok.mp returned
      rw [mul_fromPolynomial multiplied] at returned
      exact inductionHypothesis returned

/-- The two conversions of an expression agree. -/
def Agrees
    (gcdCandidate : GcdCandidate vars)
    (atom : AtomTree) :
    Prop :=
  ∀ poly result,
    convertPolynomial vars atom = .ok poly →
      convertRational gcdCandidate atom = .ok result → result = fromPolynomial poly

theorem convertRationalTerms_agrees
    {terms : List AtomTree}
    (all : ∀ term ∈ terms, Agrees gcdCandidate term)
    {start poly : MachinePolynomial vars ℚ}
    {result : RationalMembers vars}
    (accepted : convertTerms vars start terms = .ok poly)
    (returned : convertRationalTerms gcdCandidate (fromPolynomial start) terms = .ok result) :
    result = fromPolynomial poly := by
  induction terms generalizing start with
  | nil =>
      cases accepted
      cases returned
      rfl
  | cons term rest inductionHypothesis =>
      rw [convertTerms] at accepted
      rw [convertRationalTerms] at returned
      obtain ⟨termPoly, isTerm, accepted⟩ := bind_eq_ok.mp accepted
      obtain ⟨termRational, isRational, returned⟩ := bind_eq_ok.mp returned
      obtain ⟨sum, added, returned⟩ := bind_eq_ok.mp returned
      rw [all term (by simp) termPoly termRational isTerm isRational,
        mapError_eq_ok] at added
      rw [add_fromPolynomial added] at returned
      exact inductionHypothesis (fun later member => all later (by simp [member])) accepted
        returned

theorem convertRationalFactors_agrees
    {factors : List AtomTree}
    (all : ∀ factor ∈ factors, Agrees gcdCandidate factor)
    {start poly : MachinePolynomial vars ℚ}
    {result : RationalMembers vars}
    (accepted : convertFactors vars start factors = .ok poly)
    (returned :
      convertRationalFactors gcdCandidate (fromPolynomial start) factors = .ok result) :
    result = fromPolynomial poly := by
  induction factors generalizing start with
  | nil =>
      cases accepted
      cases returned
      rfl
  | cons factor rest inductionHypothesis =>
      rw [convertFactors] at accepted
      rw [convertRationalFactors] at returned
      obtain ⟨factorPoly, isFactor, accepted⟩ := bind_eq_ok.mp accepted
      obtain ⟨factorRational, isRational, returned⟩ := bind_eq_ok.mp returned
      obtain ⟨product, multiplied, returned⟩ := bind_eq_ok.mp returned
      rw [all factor (by simp) factorPoly factorRational isFactor isRational,
        mapError_eq_ok] at multiplied
      rw [mul_fromPolynomial multiplied] at returned
      exact inductionHypothesis (fun later member => all later (by simp [member])) accepted
        returned

/-- Every node of an expression that is a polynomial has the denominator one. -/
theorem agrees (atom : AtomTree) : Agrees gcdCandidate atom := by
  induction atom with
  | num value =>
      intro poly result accepted returned
      rw [convertPolynomial] at accepted
      rw [convertRational] at returned
      cases accepted
      cases returned
      rfl
  | var symbol =>
      intro poly result accepted returned
      rw [convertPolynomial] at accepted
      rw [convertRational] at returned
      obtain ⟨index, found, accepted⟩ := bind_eq_ok.mp accepted
      obtain ⟨other, otherFound, returned⟩ := bind_eq_ok.mp returned
      rw [mapError_eq_ok, found, Except.ok.injEq] at otherFound
      subst otherFound
      cases accepted
      cases returned
      rfl
  | add terms inductionHypothesis =>
      intro poly result accepted returned
      rw [convertPolynomial] at accepted
      rw [convertRational] at returned
      exact convertRationalTerms_agrees inductionHypothesis accepted returned
  | mul factors inductionHypothesis =>
      intro poly result accepted returned
      rw [convertPolynomial] at accepted
      rw [convertRational] at returned
      exact convertRationalFactors_agrees inductionHypothesis accepted returned
  | pow base exponent baseHypothesis _ =>
      intro poly result accepted returned
      rw [convertPolynomial] at accepted
      rw [convertRational] at returned
      obtain ⟨basePoly, isBase, accepted⟩ := bind_eq_ok.mp accepted
      obtain ⟨power, isPower, accepted⟩ := bind_eq_ok.mp accepted
      obtain ⟨baseRational, isRational, returned⟩ := bind_eq_ok.mp returned
      obtain ⟨⟨negative, magnitude⟩, isExponent, returned⟩ := bind_eq_ok.mp returned
      obtain ⟨rationalPower, looped, inverted⟩ := bind_eq_ok.mp returned
      rw [mapError_eq_ok, integerExponent_of_checkedExponent isPower, Except.ok.injEq,
        Prod.mk.injEq] at isExponent
      obtain ⟨rfl, rfl⟩ := isExponent
      rw [baseHypothesis basePoly baseRational isBase isRational, mapError_eq_ok] at looped
      rw [mapError_eq_ok] at inverted
      cases accepted
      cases inverted
      exact rationalPowerLoop_agrees looped
  | func head arguments _ =>
      intro poly result accepted returned
      rw [convertPolynomial] at accepted
      cases accepted

/-- An expression that is a polynomial converts to the polynomial over the denominator
one, whatever gcds the conversion finds on its way. -/
theorem atomToRationalPolynomial_eq
    {numVars : ℕ}
    {vars : Fin numVars → Symbol}
    {gcdCandidate : GcdCandidate vars}
    {atom : AtomTree}
    {poly : MachinePolynomial vars ℚ}
    {result : RationalMembers vars}
    (accepted : atomToPolynomial vars atom = .ok poly)
    (returned : atomToRationalPolynomial gcdCandidate atom = .ok result) :
    result = fromPolynomial poly :=
  agrees atom poly result accepted returned

end Agreement

private theorem add_of_candidate_one
    (left right : MachinePolynomial variableX ℚ) :
    RationalMembers.add (fun _ _ _ => .ok (some (constant 1)))
        (.fromPolynomial left) (.fromPolynomial right) =
      .ok (.fromPolynomial (left + right)) := by
  have laws : MachinePolynomial.RingLaws variableX ℚ := MachinePolynomial.ringLaws
  have found :=
    MachinePolynomial.rationalMultivariateGcd_of_candidate_one (left + right)
      (MachinePolynomial.isZero_constant one_ne_zero)
  simp only [RationalMembers.add, RationalMembers.fromPolynomial, laws.mul_one,
    RationalMembers.construct, lowestTerms_one one_ne_zero found, Outcome.ok_bind]

/-- The gcds on the way to `x + 1` are all one. -/
theorem atomToRationalPolynomial_eq_sum :
    ∃ poly result,
      atomToPolynomial variableX (.add [.var ⟨0⟩, .num 1]) = .ok poly ∧
        atomToRationalPolynomial (fun _ _ _ => .ok (some (constant 1)))
            (.add [.var ⟨0⟩, .num 1]) = .ok result ∧
          result = RationalMembers.fromPolynomial poly := by
  have found : findVariable variableX ⟨0⟩ = .ok 0 := rfl
  have accepted :
      atomToPolynomial variableX (.add [.var ⟨0⟩, .num 1]) =
        .ok (0 + .fromTerm (.single 0 1) (fits_variable 0) 1 + constant 1) := by
    simp [atomToPolynomial, convertPolynomial, convertTerms, found]
  have returned :
      atomToRationalPolynomial (fun _ _ _ => .ok (some (constant 1)))
          (.add [.var ⟨0⟩, .num 1]) =
        .ok (.fromPolynomial
          (0 + .fromTerm (.single 0 1) (fits_variable 0) 1 + constant 1 :
            MachinePolynomial variableX ℚ)) := by
    simp [atomToRationalPolynomial, convertRational, convertRationalTerms, found,
      add_of_candidate_one]
  exact ⟨_, _, accepted, returned, atomToRationalPolynomial_eq accepted returned⟩

end PolyCore
