import Mathlib.Algebra.Field.Defs
import Stocas.Numerica.Rational

namespace NumericaCore

/-!
# Truncated Taylor series

`HyperDual<F, Order>` holds the first coefficients of a Taylor series.  Its
arithmetic computes each coefficient of a result from those of the operands; the
loops that use earlier coefficients of the result itself build their list up.
-/

/-- The transcendental functions of a scalar type, and `x > F(0.0)`. -/
structure ScalarFunctions (F : Type*) where
  exp : F → F
  log : F → F
  sin : F → F
  cos : F → F
  isPositive : F → Bool

/-- `HyperDual<F, Order>`. -/
structure HyperDual (F : Type*) (order : Nat) where
  coefficients : Vector F (order + 1)

namespace HyperDual

variable {F : Type*} [Field F] {order : Nat}

/-- `coefficient(k)`, for `k` at most the order. -/
def coefficient (series : HyperDual F order) (k : Nat) : F :=
  series.coefficients.getD k 0

/-- Fill all coefficients by their positions. -/
def ofCoefficients (coefficientAt : Nat → F) : HyperDual F order :=
  ⟨.ofFn fun k => coefficientAt k⟩

/-- `HyperDual::variable`. -/
def independent (value : F) : HyperDual F order :=
  ofCoefficients fun k => if k = 0 then value else if k = 1 then 1 else 0

/-- `HyperDual::constant`. -/
def constant (value : F) : HyperDual F order :=
  ofCoefficients fun k => if k = 0 then value else 0

/-- `operator+`. -/
def add (first second : HyperDual F order) : HyperDual F order :=
  ofCoefficients fun k => first.coefficient k + second.coefficient k

/-- `operator-`. -/
def sub (first second : HyperDual F order) : HyperDual F order :=
  ofCoefficients fun k => first.coefficient k - second.coefficient k

/-- `operator*`: the Cauchy product. -/
def mul (first second : HyperDual F order) : HyperDual F order :=
  ofCoefficients fun k =>
    (List.range k).foldl
      (fun sum i => sum + first.coefficient (i + 1) * second.coefficient (k - (i + 1)))
      (first.coefficient 0 * second.coefficient k)

/-- The coefficients of a quotient up to a position, each from those before it. -/
def quotientUpTo (first second : HyperDual F order) : Nat → List F
  | 0 => [first.coefficient 0 / second.coefficient 0]
  | k + 1 =>
      let earlier := quotientUpTo first second k
      earlier ++
        [(List.range (k + 1)).foldl
          (fun sum i => sum - earlier.getD i 0 * second.coefficient (k + 1 - i))
          (first.coefficient (k + 1)) / second.coefficient 0]

/-- `operator/`. -/
def div [DecidableEq F] (first second : HyperDual F order) :
    Except DomainError (HyperDual F order) :=
  if second.coefficient 0 = 0 then
    .error
      ⟨"HyperDual::operator/: divisor has a zero constant term (a pole at " ++
        "the expansion point) - only Taylor (non-singular) series are supported"⟩
  else
    .ok (ofCoefficients fun k => (quotientUpTo first second order).getD k 0)

section Functions

variable (functions : ScalarFunctions F)

/-- The coefficients of an exponential up to a position. -/
def expUpTo (x : HyperDual F order) : Nat → List F
  | 0 => [functions.exp (x.coefficient 0)]
  | k + 1 =>
      let earlier := expUpTo x k
      earlier ++
        [(List.range (k + 1)).foldl
          (fun sum i =>
            sum + ((i + 1 : Nat) : F) * x.coefficient (i + 1) * earlier.getD (k - i) 0)
          0 / ((k + 1 : Nat) : F)]

/-- `HyperDual::exp`. -/
def exp (x : HyperDual F order) : HyperDual F order :=
  ofCoefficients fun k => (expUpTo functions x order).getD k 0

/-- The coefficients of a logarithm up to a position. -/
def logUpTo (x : HyperDual F order) : Nat → List F
  | 0 => [functions.log (x.coefficient 0)]
  | k + 1 =>
      let earlier := logUpTo x k
      let sum :=
        (List.range k).foldl
          (fun sum i =>
            sum + ((i + 1 : Nat) : F) * earlier.getD (i + 1) 0 * x.coefficient (k - i))
          0
      earlier ++
        [(x.coefficient (k + 1) - sum / ((k + 1 : Nat) : F)) / x.coefficient 0]

/-- `HyperDual::log`. -/
def log (x : HyperDual F order) : Except DomainError (HyperDual F order) :=
  if functions.isPositive (x.coefficient 0) then
    .ok (ofCoefficients fun k => (logUpTo functions x order).getD k 0)
  else
    .error ⟨"HyperDual::log: constant term must be positive"⟩

/-- The coefficients of sine and cosine up to a position, from each other. -/
def sinCosUpTo (x : HyperDual F order) : Nat → List (F × F)
  | 0 => [(functions.sin (x.coefficient 0), functions.cos (x.coefficient 0))]
  | k + 1 =>
      let earlier := sinCosUpTo x k
      let sums :=
        (List.range (k + 1)).foldl
          (fun sums i =>
            let term := ((i + 1 : Nat) : F) * x.coefficient (i + 1)
            let before := earlier.getD (k - i) (0, 0)
            (sums.1 + term * before.2, sums.2 + term * before.1))
          ((0, 0) : F × F)
      earlier ++
        [(sums.1 / ((k + 1 : Nat) : F), -(sums.2 / ((k + 1 : Nat) : F)))]

/-- `HyperDual::sin`. -/
def sin (x : HyperDual F order) : HyperDual F order :=
  ofCoefficients fun k => ((sinCosUpTo functions x order).getD k (0, 0)).1

/-- `HyperDual::cos`. -/
def cos (x : HyperDual F order) : HyperDual F order :=
  ofCoefficients fun k => ((sinCosUpTo functions x order).getD k (0, 0)).2

end Functions

end HyperDual

end NumericaCore
