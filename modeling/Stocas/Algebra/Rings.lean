import Stocas.Numerica.BigIntExact
import Stocas.Numerica.FiniteFieldWords

namespace AlgebraCore

open NumericaCore (BigInt FiniteField Machine)

/-!
# Ring structs

The generic algorithms are templates over a struct that has the operations of a ring.
An operation may throw, so each returns a `Machine` result.
-/

/-- The concept `EuclideanDomain`: a ring in which division gives quotient and remainder. -/
structure EuclideanDomain (Element : Type) where
  zero : Element
  one : Element
  add : Element → Element → Machine Element
  sub : Element → Element → Machine Element
  mul : Element → Element → Machine Element
  neg : Element → Machine Element
  divRem : Element → Element → Machine (Element × Element)
  /-- `operator==` of the elements. -/
  equals : Element → Element → Bool

/-- `IntegerRing`. -/
def integerRing (hasInt128 : Bool) : EuclideanDomain BigInt where
  zero := BigInt.ofInt64 0
  one := BigInt.ofInt64 1
  add := BigInt.add
  sub := BigInt.sub
  mul := BigInt.mul hasInt128
  neg := BigInt.neg
  divRem a b := do .ok (← a.div b, ← a.rem b)
  equals := BigInt.equals

section FiniteFieldRing

variable {width : ℕ} (modulus : BitVec width) [Fact (1 < modulus.toNat)]

/-- `FiniteFieldRing::inv`, which throws for zero. -/
def finiteFieldInv (operand : FiniteField modulus) : Machine (FiniteField modulus) :=
  match operand.inverse with
  | .ok inverted => .ok inverted
  | .error error => .error (.domainError error.message.toList)

/-- `FiniteFieldRing`: division leaves no remainder. -/
def finiteFieldRing : EuclideanDomain (FiniteField modulus) where
  zero := FiniteField.ofValue 0
  one := FiniteField.ofValue 1
  add a b := .ok (a + b)
  sub a b := .ok (a - b)
  mul a b := .ok (a * b)
  neg a := .ok (-a)
  divRem a b := do
    let inverted ← finiteFieldInv modulus b
    .ok (a * inverted, FiniteField.ofValue 0)
  equals a b := a == b

end FiniteFieldRing

end AlgebraCore
