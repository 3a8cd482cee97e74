import Mathlib.Algebra.Order.Field.Rat
import Stocas.SymbolTable.Table

namespace NumericaCore

open SymbolTable (Text)

/-!
# Decimal forms of numbers

`BigInt` and `Rational` values are exact integers and rationals in lowest
terms, so `ℤ` and `ℚ` stand for them; what the expression layer reads of them
besides arithmetic and order is their decimal form.
-/

/-- `BigInt::to_string`. -/
def bigIntToString (value : ℤ) : Text :=
  if value < 0 then
    '-' :: Nat.toDigits 10 value.natAbs
  else
    Nat.toDigits 10 value.natAbs

/-- `BigInt(const std::string&)` on strings of the form `-?[0-9]+`. -/
def bigIntOfString : Text → ℤ
  | '-' :: digits => -(Nat.ofDigitChars 10 digits 0 : ℤ)
  | digits => Nat.ofDigitChars 10 digits 0

/-- `Rational::to_string`: an integer, or numerator and denominator. -/
def rationalToString (value : ℚ) : Text :=
  if value.den = 1 then
    bigIntToString value.num
  else
    bigIntToString value.num ++ "/".toList ++ bigIntToString value.den

/-- Reading the decimal digits of a natural number gives it back. -/
theorem bigIntOfString_toDigits (value : ℕ) :
    bigIntOfString (Nat.toDigits 10 value) = value := by
  have noSign :
      ∀ rest, Nat.toDigits 10 value ≠ '-' :: rest := by
    intro rest shape
    have digit : ('-' : Char).isDigit = true :=
      Nat.isDigit_of_mem_toDigits (b := 10) (n := value)
        (by decide) (by decide) (by simp [shape])
    exact absurd digit (by decide)
  have readBack := Nat.ofDigitChars_ten_toDigits (n := value)
  cases digits : Nat.toDigits 10 value with
  | nil =>
      exact absurd digits Nat.toDigits_ne_nil
  | cons first rest =>
      rw [digits] at noSign readBack
      by_cases sign : first = '-'
      · subst first
        exact (noSign rest rfl).elim
      · simp [bigIntOfString, readBack]

/-- A sign in front of decimal digits negates them. -/
theorem bigIntOfString_neg_toDigits (value : ℕ) :
    bigIntOfString ('-' :: Nat.toDigits 10 value) = -value := by
  simp [bigIntOfString, Nat.ofDigitChars_ten_toDigits]

end NumericaCore
