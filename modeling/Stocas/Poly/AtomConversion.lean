import Stocas.Atom.Evaluation
import Stocas.Library.Outcome
import Stocas.Numerica.Decimal
import Stocas.Poly.MachinePolynomial

namespace PolyCore

open AtomCore (AtomTree)
open NumericaCore (bigIntOfString bigIntOfString_toDigits bigIntToString)
open Outcome (bind_eq_ok ok_bind)
open SymbolTable (Symbol Text)

/-!
# From expressions to polynomials

`atom_to_polynomial` multiplies out an expression over a list of variables.  The
exponent of a power goes through `std::stoul` and a narrowing to 32 bits.
-/

/-- What the conversion throws. -/
inductive ConversionError where
  /-- `std::invalid_argument` -/
  | invalidArgument (message : String)
  /-- `std::out_of_range` -/
  | outOfRange (message : String)
deriving DecidableEq

/-- `std::stoul` on decimal digits; `unsigned long` has 64 bits. -/
def stoul (digits : Text) : Except ConversionError ℕ :=
  let value := (bigIntOfString digits).toNat
  if value < 2 ^ 64 then
    .ok value
  else
    .error (.outOfRange "stoul")

/-- `bigint_to_exponent`: the low 32 bits. -/
def bigintToExponent (value : ℤ) : Except ConversionError ℕ := do
  let word ← stoul (bigIntToString value)
  .ok (word % exponentModulus)

section Conversion

variable {numVars : ℕ} (vars : Fin numVars → Symbol)

/-- `find_variable`: the first place of a symbol. -/
def findVariable (symbol : Symbol) : Except ConversionError (Fin numVars) :=
  match (List.finRange numVars).find? (fun index => vars index = symbol) with
  | none =>
      .error
        (.invalidArgument
          ("poly_core: atom references a variable not present in the given " ++
            "variable list"))
  | some index => .ok index

theorem fits_variable (varIndex : Fin numVars) :
    (Monomial.single varIndex 1).Fits :=
  MultivariatePolynomial.fits_single (by decide)

/-- The loop of a power: `exponent` products by the base. -/
def powerLoop
    {vars : Fin numVars → Symbol}
    (base result : MachinePolynomial vars ℚ) :
    ℕ → MachinePolynomial vars ℚ
  | 0 => result
  | remaining + 1 => powerLoop base (result * base) remaining

/-- The exponent of a power, if it is a non-negative integer leaf. -/
def checkedExponent (exponent : AtomTree) : Except ConversionError ℕ :=
  match exponent with
  | .num value =>
      if value.den ≠ 1 then
        .error
          (.invalidArgument
            "poly_core::atom_to_polynomial: Pow exponent must be an integer Num")
      else if value.num < 0 then
        .error
          (.invalidArgument
            ("poly_core::atom_to_polynomial: negative exponent - use " ++
              "atom_to_rational_polynomial instead"))
      else
        bigintToExponent value.num
  | _ =>
      .error
        (.invalidArgument
          "poly_core::atom_to_polynomial: Pow exponent must be an integer Num")

mutual

/-- `convert_polynomial`. -/
def convertPolynomial :
    AtomTree → Except ConversionError (MachinePolynomial vars ℚ)
  | .num value => .ok (.constant value)
  | .var symbol => do
      let index ← findVariable vars symbol
      .ok (.fromTerm (.single index 1) (fits_variable index) 1)
  | .add terms => convertTerms 0 terms
  | .mul factors => convertFactors (.constant 1) factors
  | .pow base exponent => do
      let basePoly ← convertPolynomial base
      let exponentValue ← checkedExponent exponent
      .ok (powerLoop basePoly (.constant 1) exponentValue)
  | .func _ _ =>
      .error
        (.invalidArgument
          ("poly_core::atom_to_polynomial: function calls are not representable " ++
            "as a polynomial"))

/-- The loop over the terms of a sum. -/
def convertTerms
    (result : MachinePolynomial vars ℚ) :
    List AtomTree → Except ConversionError (MachinePolynomial vars ℚ)
  | [] => .ok result
  | term :: rest => do
      let termPoly ← convertPolynomial term
      convertTerms (result + termPoly) rest

/-- The loop over the factors of a product. -/
def convertFactors
    (result : MachinePolynomial vars ℚ) :
    List AtomTree → Except ConversionError (MachinePolynomial vars ℚ)
  | [] => .ok result
  | factor :: rest => do
      let factorPoly ← convertPolynomial factor
      convertFactors (result * factorPoly) rest

end

/-- `atom_to_polynomial`. -/
def atomToPolynomial (atom : AtomTree) :
    Except ConversionError (MachinePolynomial vars ℚ) :=
  convertPolynomial vars atom

/-- A node of an expression that is a polynomial in the listed variables. -/
def PolynomialNode : AtomTree → Prop
  | .var symbol => ∃ index, vars index = symbol
  | .pow _ exponent => ∃ power : ℕ, exponent = .num power
  | .func _ _ => False
  | _ => True

/-- A power by a natural number, undefined otherwise. -/
def naturalPower (base exponent : ℚ) : Option ℚ :=
  if exponent.den = 1 ∧ 0 ≤ exponent.num then
    some (base ^ exponent.num.toNat)
  else
    none

/-- Rational values for the variables, with natural powers. -/
def rationalPoint (values : Symbol → ℚ) : AtomCore.Interpretation ℚ where
  variableValue := values
  function := fun _ _ => none
  power := naturalPower

/-- The value of a polynomial where the variables have values. -/
noncomputable def MachinePolynomial.valueAt
    {vars : Fin numVars → Symbol}
    (poly : MachinePolynomial vars ℚ)
    (values : Symbol → ℚ) :
    ℚ :=
  MvPolynomial.eval (fun index => values (vars index)) poly.toMvPolynomial

mutual

/-- The polynomial of an expression, its exponents taken through `narrow`. -/
noncomputable def polynomialOf (narrow : ℕ → ℕ) :
    AtomTree → MvPolynomial (Fin numVars) ℚ
  | .num value => MvPolynomial.C value
  | .var symbol =>
      match findVariable vars symbol with
      | .error _ => 0
      | .ok index => MvPolynomial.X index
  | .add terms => (polynomialsOf narrow terms).sum
  | .mul factors => (polynomialsOf narrow factors).prod
  | .pow base exponent =>
      match exponent with
      | .num value => polynomialOf narrow base ^ narrow value.num.toNat
      | _ => 0
  | .func _ _ => 0

/-- The polynomials of some expressions. -/
noncomputable def polynomialsOf (narrow : ℕ → ℕ) :
    List AtomTree → List (MvPolynomial (Fin numVars) ℚ)
  | [] => []
  | tree :: rest => polynomialOf narrow tree :: polynomialsOf narrow rest

end

end Conversion

end PolyCore
