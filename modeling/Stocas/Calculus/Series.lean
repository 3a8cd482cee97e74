import Stocas.Calculus.Derivative
import Stocas.Numerica.HyperDual

namespace CalculusCore

open AtomCore (AtomTree)
open NumericaCore (DomainError HyperDual ScalarFunctions)
open SymbolTable (Snapshot Symbol Text)

/-!
# Series expansion

An expression in one variable is evaluated with the variable bound to the truncated
series of itself around the point.  Numbers are converted exactly.
-/

/-- The exceptions of a series expansion. -/
inductive SeriesError where
  | invalidArgument (message : Text)
  | domainError (message : Text)
  | outOfRange
  deriving Repr, DecidableEq

/-- Pass on the exception of a series operation. -/
def liftDomain {α : Type*} : Except DomainError α → Except SeriesError α
  | .ok result => .ok result
  | .error error => .error (.domainError error.message.toList)

section Evaluate

variable {F : Type*} [Field F] [DecidableEq F] {order : Nat}

/-- The loop of `integer_power`: repeated squaring. -/
def powerLoop
    (result power : HyperDual F order)
    (magnitude : Nat) :
    HyperDual F order :=
  if magnitude = 0 then
    result
  else
    powerLoop
      (if magnitude % 2 = 1 then result.mul power else result)
      (power.mul power)
      (magnitude / 2)
  termination_by magnitude

/-- `integer_power`. -/
def integerPower (base : HyperDual F order) (exponent : ℤ) :
    Except SeriesError (HyperDual F order) :=
  let result := powerLoop (.constant 1) base exponent.natAbs
  if exponent < 0 then
    liftDomain (HyperDual.div (.constant 1) result)
  else
    .ok result

variable (table : Snapshot) (symbols : CalculusSymbols) (functions : ScalarFunctions F)
  (variable_ : Symbol)

/-- The exception for a variable without a value. -/
def freeVariable (symbol : Symbol) : SeriesError :=
  .invalidArgument
    ("calculus_core::taylor_series: expression contains a free variable other ".toList ++
      "than the expansion variable ('".toList ++ SymbolTable.symbolName table symbol ++
      "')".toList)

/-- The exception for a call that does not have one argument. -/
def notUnary (head : Symbol) (count : Nat) : SeriesError :=
  .invalidArgument
    ("calculus_core::taylor_series: only unary functions are supported ('".toList ++
      SymbolTable.symbolName table head ++ "' has ".toList ++ (toString count).toList ++
      " argument(s))".toList)

/-- The exception for a head without a series. -/
def unsupportedFunction (head : Symbol) : SeriesError :=
  .invalidArgument
    ("calculus_core::taylor_series: no series-expansion support for function '".toList ++
      SymbolTable.symbolName table head ++
      "' (only sin/cos/exp/ln are supported)".toList)

/-- The function that a head stands for, applied to a series. -/
def applyFunction (head : Symbol) (argument : HyperDual F order) :
    Except SeriesError (HyperDual F order) :=
  if head = symbols.sin then
    .ok (argument.sin functions)
  else if head = symbols.cos then
    .ok (argument.cos functions)
  else if head = symbols.exp then
    .ok (argument.exp functions)
  else if head = symbols.ln then
    liftDomain (argument.log functions)
  else
    .error (unsupportedFunction table head)

mutual

/-- `evaluate_hyper_dual`. -/
def evaluateHyperDual (value : HyperDual F order) :
    AtomTree → Except SeriesError (HyperDual F order)
  | .num number => .ok (.constant (number : F))
  | .var symbol =>
      if symbol = variable_ then .ok value else .error (freeVariable table symbol)
  | .add terms => evaluateSum value terms (.constant 0)
  | .mul factors => evaluateProduct value factors (.constant 1)
  | .pow base exponent => do
      let baseSeries ← evaluateHyperDual value base
      match exponent with
      | .num number =>
          if number.den = 1 then
            integerPower baseSeries number.num
          else
            let logarithm ← liftDomain (baseSeries.log functions)
            .ok ((HyperDual.mul (.constant (number : F)) logarithm).exp functions)
      | exponent => do
          let exponentSeries ← evaluateHyperDual value exponent
          let logarithm ← liftDomain (baseSeries.log functions)
          .ok ((exponentSeries.mul logarithm).exp functions)
  | .func head arguments => evaluateCall value head arguments

/-- The loop over the terms of a sum. -/
def evaluateSum (value : HyperDual F order) :
    List AtomTree → HyperDual F order → Except SeriesError (HyperDual F order)
  | [], sum => .ok sum
  | term :: rest, sum => do
      let next ← evaluateHyperDual value term
      evaluateSum value rest (sum.add next)

/-- The loop over the factors of a product. -/
def evaluateProduct (value : HyperDual F order) :
    List AtomTree → HyperDual F order → Except SeriesError (HyperDual F order)
  | [], product => .ok product
  | factor :: rest, product => do
      let next ← evaluateHyperDual value factor
      evaluateProduct value rest (product.mul next)

/-- The case of a function call. -/
def evaluateCall (value : HyperDual F order) (head : Symbol) :
    List AtomTree → Except SeriesError (HyperDual F order)
  | [only] => do
      let argument ← evaluateHyperDual value only
      applyFunction table symbols functions head argument
  | arguments => .error (notUnary table head arguments.length)

end

end Evaluate

/-- `Series<F, Order>`. -/
structure Series (F : Type*) (order : Nat) where
  point : F
  coefficients : Vector F (order + 1)

/-- `Series::coefficient`, which checks its argument. -/
def Series.coefficient {F : Type*} {order : Nat} (series : Series F order) (k : Nat) :
    Except SeriesError F :=
  match series.coefficients[k]? with
  | some coefficient => .ok coefficient
  | none => .error .outOfRange

/-- `taylor_series`. -/
def taylorSeries
    {F : Type*}
    [Field F]
    [DecidableEq F]
    (order : Nat)
    (table : Snapshot)
    (symbols : CalculusSymbols)
    (functions : ScalarFunctions F)
    (expr : AtomTree)
    (variable_ : Symbol)
    (point : F) :
    Except SeriesError (Series F order) := do
  let result : HyperDual F order ←
    evaluateHyperDual table symbols functions variable_ (.independent point) expr
  .ok
    { point := point
      coefficients := .ofFn fun k => result.coefficient k }

end CalculusCore
