import Mathlib.Algebra.Order.Ring.Abs
import Mathlib.Algebra.Order.Ring.Int
import Mathlib.Data.Int.GCD
import Stocas.Library.Outcome
import Stocas.SymbolTable.Table

namespace NumericaCore

open Outcome (bind_eq_ok ok_bind)
open SymbolTable (Text)

/-!
# Integers of any size

A `BigInt` that fits into 64 bits is stored inline and computed with machine arithmetic,
guarded by overflow checks; every other value and every other step goes through GMP,
whose integers are exact.  Overflow of a signed machine operation has no meaning in the
source, so a step that would overflow is an outcome of its own here.
-/

/-- What a computation with machine integers may end in besides a value. -/
inductive Fault where
  /-- A signed operation left the range of its type, or a machine division was by zero. -/
  | undefined
  /-- `std::domain_error`. -/
  | domainError (message : Text)
  /-- `std::invalid_argument`. -/
  | invalidArgument (message : Text)
  deriving Repr, DecidableEq

/-- A computation with machine integers. -/
abbrev Machine (α : Type) : Type := Except Fault α

/-- The value fits into `int64_t`. -/
def FitsInt64 (value : ℤ) : Prop :=
  -9223372036854775808 ≤ value ∧ value ≤ 9223372036854775807

instance (value : ℤ) : Decidable (FitsInt64 value) :=
  inferInstanceAs (Decidable (_ ∧ _))

namespace MachineInt

/-- The result of a signed operation is its exact value, if that is representable. -/
def ofExact (value : ℤ) : Machine Int64 :=
  if FitsInt64 value then
    .ok (Int64.ofInt value)
  else
    .error .undefined

/-- Signed `+`. -/
def add (a b : Int64) : Machine Int64 :=
  ofExact (a.toInt + b.toInt)

/-- Signed `-`. -/
def sub (a b : Int64) : Machine Int64 :=
  ofExact (a.toInt - b.toInt)

/-- Signed `*`. -/
def mul (a b : Int64) : Machine Int64 :=
  ofExact (a.toInt * b.toInt)

/-- Signed unary `-`. -/
def neg (a : Int64) : Machine Int64 :=
  ofExact (-a.toInt)

/-- Signed `/`, which truncates. -/
def div (a b : Int64) : Machine Int64 :=
  if b.toInt = 0 then
    .error .undefined
  else
    ofExact (a.toInt.tdiv b.toInt)

/-- Signed `%`, which has a meaning only where `/` has. -/
def rem (a b : Int64) : Machine Int64 :=
  if b.toInt = 0 ∨ ¬FitsInt64 (a.toInt.tdiv b.toInt) then
    .error .undefined
  else
    ofExact (a.toInt.tmod b.toInt)

/-- `__int128` products; the type holds values from `-2 ^ 127` below `2 ^ 127`. -/
def mulWide (a b : Int64) : Machine ℤ :=
  let product := a.toInt * b.toInt
  if -2 ^ 127 ≤ product ∧ product < 2 ^ 127 then
    .ok product
  else
    .error .undefined

/-- `&&`, which evaluates its right operand only if the left one holds. -/
def both (first : Bool) (second : Machine Bool) : Machine Bool :=
  if first then second else .ok false

/-- `||`, which evaluates its right operand only if the left one fails. -/
def either (first second : Machine Bool) : Machine Bool :=
  do
    if ← first then .ok true else second

/-- A representable result is computed. -/
theorem ofExact_of_fits
    {value : ℤ}
    (fits : FitsInt64 value) :
    ofExact value = .ok (Int64.ofInt value) :=
  if_pos fits

end MachineInt

open MachineInt (both either ofExact ofExact_of_fits)

/-- Every machine integer is in range. -/
theorem fitsInt64_toInt (value : Int64) :
    FitsInt64 value.toInt := by
  have lower := value.le_toInt
  have upper := value.toInt_lt
  exact ⟨by omega, by omega⟩

/-- A value in range is the machine integer that is made of it. -/
theorem toInt_ofInt_of_fits
    {value : ℤ}
    (fits : FitsInt64 value) :
    (Int64.ofInt value).toInt = value := by
  obtain ⟨lower, upper⟩ := fits
  exact Int64.toInt_ofInt_of_le (by omega) (by omega)

/-- `add_overflows`. -/
def addOverflows (a b : Int64) : Machine Bool :=
  either
    (both (0 < b) (do
      let limit ← MachineInt.sub Int64.maxValue b
      .ok (decide (limit < a))))
    (both (b < 0) (do
      let limit ← MachineInt.sub Int64.minValue b
      .ok (decide (a < limit))))

/-- `sub_overflows`. -/
def subOverflows (a b : Int64) : Machine Bool :=
  either
    (both (b < 0) (do
      let limit ← MachineInt.add Int64.maxValue b
      .ok (decide (limit < a))))
    (both (0 < b) (do
      let limit ← MachineInt.add Int64.minValue b
      .ok (decide (a < limit))))

/-- `mul_overflows` where the compiler has `__int128`. -/
def mulOverflowsWide (a b : Int64) : Machine Bool :=
  if a = 0 ∨ b = 0 then
    .ok false
  else do
    let product ← MachineInt.mulWide a b
    .ok (decide (product < Int64.minValue.toInt ∨ Int64.maxValue.toInt < product))

/-- `a < 0 ? -a : a`. -/
def machineAbs (a : Int64) : Machine Int64 :=
  if a < 0 then MachineInt.neg a else .ok a

/-- `mul_overflows` elsewhere, by division. -/
def mulOverflowsPortable (a b : Int64) : Machine Bool :=
  if a = 0 ∨ b = 0 then
    .ok false
  else if a = Int64.minValue then
    .ok (decide (b ≠ 1))
  else if b = Int64.minValue then
    .ok (decide (a ≠ 1))
  else do
    let absA ← machineAbs a
    let absB ← machineAbs b
    let limit ← MachineInt.div Int64.maxValue absB
    .ok (decide (limit < absA))

/-- `mul_overflows`, in the variant that the compiler selects. -/
def mulOverflows (hasInt128 : Bool) (a b : Int64) : Machine Bool :=
  if hasInt128 then mulOverflowsWide a b else mulOverflowsPortable a b

/-- `BigInt`: inline, or a GMP integer that is out of the inline range. -/
inductive BigInt where
  | small (value : Int64)
  | big (value : ℤ) (outside : ¬FitsInt64 value)
  deriving DecidableEq

namespace BigInt

/-- The integer that is represented. -/
def value : BigInt → ℤ
  | .small inline => inline.toInt
  | .big exact _ => exact

/-- `is_small`. -/
def isSmall : BigInt → Bool
  | .small _ => true
  | .big _ _ => false

/-- The end of every slow path: `fits_in_int64`, and back to the inline form if it does. -/
def demote (exact : ℤ) : BigInt :=
  if fits : FitsInt64 exact then
    .small (Int64.ofInt exact)
  else
    .big exact fits

/-- `BigInt(int64_t)`. -/
def ofInt64 (value : Int64) : BigInt :=
  .small value

/-- `BigInt(const std::string&)`; `setStr` is `mpz_set_str` for base 10. -/
def ofString (setStr : Text → Option ℤ) (decimalString : Text) : Machine BigInt :=
  match setStr decimalString with
  | none =>
      .error (.invalidArgument
        ("BigInt: invalid base-10 string '".toList ++ decimalString ++ "'".toList))
  | some exact => .ok (demote exact)

/-- `operator+`. -/
def add : BigInt → BigInt → Machine BigInt
  | .small a, .small b => do
      if ← addOverflows a b then
        .ok (demote (a.toInt + b.toInt))
      else
        .ok (ofInt64 (← MachineInt.add a b))
  | lhs, rhs => .ok (demote (lhs.value + rhs.value))

/-- `operator-`. -/
def sub : BigInt → BigInt → Machine BigInt
  | .small a, .small b => do
      if ← subOverflows a b then
        .ok (demote (a.toInt - b.toInt))
      else
        .ok (ofInt64 (← MachineInt.sub a b))
  | lhs, rhs => .ok (demote (lhs.value - rhs.value))

/-- `operator*`. -/
def mul (hasInt128 : Bool) : BigInt → BigInt → Machine BigInt
  | .small a, .small b => do
      if ← mulOverflows hasInt128 a b then
        .ok (demote (a.toInt * b.toInt))
      else
        .ok (ofInt64 (← MachineInt.mul a b))
  | lhs, rhs => .ok (demote (lhs.value * rhs.value))

/-- `operator<=>`; the slow path is `mpz_cmp`. -/
def compare : BigInt → BigInt → Ordering
  | .small a, .small b => Ord.compare a.toInt b.toInt
  | lhs, rhs => Ord.compare lhs.value rhs.value

/-- `operator==`. -/
def equals (a b : BigInt) : Bool :=
  a.compare b == .eq

/-- `operator/`. -/
def div (a b : BigInt) : Machine BigInt :=
  if b.equals (ofInt64 0) then
    .error (.domainError "BigInt: division by zero".toList)
  else
    match a, b with
    | .small a, .small b =>
        if a = Int64.minValue ∧ b = -1 then
          .ok (demote (a.toInt.tdiv b.toInt))
        else do
          .ok (ofInt64 (← MachineInt.div a b))
    | lhs, rhs => .ok (demote (lhs.value.tdiv rhs.value))

/-- `operator%`. -/
def rem (a b : BigInt) : Machine BigInt :=
  if b.equals (ofInt64 0) then
    .error (.domainError "BigInt: modulo by zero".toList)
  else
    match a, b with
    | .small a, .small b =>
        if a = Int64.minValue ∧ b = -1 then
          .ok (demote (a.toInt.tmod b.toInt))
        else do
          .ok (ofInt64 (← MachineInt.rem a b))
    | lhs, rhs => .ok (demote (lhs.value.tmod rhs.value))

/-- Unary `operator-`. -/
def neg : BigInt → Machine BigInt
  | .small a =>
      if a ≠ Int64.minValue then do
        .ok (ofInt64 (← MachineInt.neg a))
      else
        .ok (demote (-a.toInt))
  | operand => .ok (demote (-operand.value))

/-- `BigInt::gcd`, by `mpz_gcd`. -/
def gcd (a b : BigInt) : BigInt :=
  demote (Int.gcd a.value b.value)

/-- `BigInt::extended_gcd`; `gcdext` is `mpz_gcdext`. -/
def extendedGcd (gcdext : ℤ → ℤ → ℤ × ℤ × ℤ) (a b : BigInt) : BigInt × BigInt × BigInt :=
  let (g, x, y) := gcdext a.value b.value
  (demote g, demote x, demote y)

end BigInt

/-- Zero is the machine integer with the value zero. -/
theorem int64_eq_zero_iff (value : Int64) :
    value = 0 ↔ value.toInt = 0 := by
  rw [← Int64.toInt_inj]
  rfl

theorem minValue_toInt : Int64.minValue.toInt = -9223372036854775808 :=
  rfl

theorem maxValue_toInt : Int64.maxValue.toInt = 9223372036854775807 :=
  rfl

/-- The left operand guards a limit that is representable where it holds. -/
theorem both_limit
    {condition : Prop}
    [Decidable condition]
    {limit : ℤ}
    {test : Int64 → Bool}
    {exact : Prop}
    [Decidable exact]
    (fits : condition → FitsInt64 limit)
    (meaning : FitsInt64 limit → test (Int64.ofInt limit) = decide exact) :
    both (decide condition) (do
        let word ← ofExact limit
        .ok (test word)) =
      .ok (decide (condition ∧ exact)) := by
  by_cases holds : condition
  · have inRange := fits holds
    simp only [both, holds, decide_true, if_true, ofExact_of_fits inRange, ok_bind,
      meaning inRange, true_and]
  · simp only [both, holds, decide_false, Bool.false_eq_true, if_false, false_and]

/-- A limit from above. -/
theorem limit_lt
    {limit : ℤ}
    (a : Int64)
    (fits : FitsInt64 limit) :
    decide (Int64.ofInt limit < a) = decide (limit < a.toInt) := by
  rw [decide_eq_decide, Int64.lt_iff_toInt_lt, toInt_ofInt_of_fits fits]

/-- A limit from below. -/
theorem lt_limit
    {limit : ℤ}
    (a : Int64)
    (fits : FitsInt64 limit) :
    decide (a < Int64.ofInt limit) = decide (a.toInt < limit) := by
  rw [decide_eq_decide, Int64.lt_iff_toInt_lt, toInt_ofInt_of_fits fits]

@[simp] theorem either_ok
    (first second : Bool) :
    either (.ok first) (.ok second) = .ok (first || second) := by
  cases first <;> rfl

/-- `add_overflows` finds the sums that do not fit, without overflowing itself. -/
theorem addOverflows_eq (a b : Int64) :
    addOverflows a b = .ok (decide (¬FitsInt64 (a.toInt + b.toInt))) := by
  have aFits := fitsInt64_toInt a
  have bFits := fitsInt64_toInt b
  have zero : (0 : Int64).toInt = 0 := rfl
  simp only [FitsInt64] at aFits bFits
  rw [addOverflows, MachineInt.sub, MachineInt.sub, minValue_toInt, maxValue_toInt,
    both_limit ?_ (limit_lt a), both_limit ?_ (lt_limit a), either_ok]
  · rw [← Bool.decide_or, Except.ok.injEq, decide_eq_decide]
    simp only [Int64.lt_iff_toInt_lt, zero, FitsInt64]
    omega
  all_goals
    simp only [Int64.lt_iff_toInt_lt, zero, FitsInt64]
    omega

/-- `sub_overflows` finds the differences that do not fit. -/
theorem subOverflows_eq (a b : Int64) :
    subOverflows a b = .ok (decide (¬FitsInt64 (a.toInt - b.toInt))) := by
  have aFits := fitsInt64_toInt a
  have bFits := fitsInt64_toInt b
  have zero : (0 : Int64).toInt = 0 := rfl
  simp only [FitsInt64] at aFits bFits
  rw [subOverflows, MachineInt.add, MachineInt.add, minValue_toInt, maxValue_toInt,
    both_limit ?_ (limit_lt a), both_limit ?_ (lt_limit a), either_ok]
  · rw [← Bool.decide_or, Except.ok.injEq, decide_eq_decide]
    simp only [Int64.lt_iff_toInt_lt, zero, FitsInt64]
    omega
  all_goals
    simp only [Int64.lt_iff_toInt_lt, zero, FitsInt64]
    omega

/-- The product of two machine integers fits into 128 bits. -/
theorem mulWide_eq (a b : Int64) :
    MachineInt.mulWide a b = .ok (a.toInt * b.toInt) := by
  have bound :
      ∀ word : Int64, |word.toInt| ≤ 9223372036854775808 := by
    intro word
    obtain ⟨lower, upper⟩ := fitsInt64_toInt word
    exact abs_le.mpr ⟨lower, by omega⟩
  have product : |a.toInt * b.toInt| ≤ 9223372036854775808 * 9223372036854775808 := by
    rw [abs_mul]
    exact mul_le_mul (bound a) (bound b) (abs_nonneg _) (by decide)
  obtain ⟨lower, upper⟩ := abs_le.mp product
  rw [MachineInt.mulWide, if_pos]
  constructor
  · omega
  · omega

/-- A product with zero fits. -/
theorem fitsInt64_mul_of_zero
    {a b : Int64}
    (zero : a = 0 ∨ b = 0) :
    FitsInt64 (a.toInt * b.toInt) := by
  have product : a.toInt * b.toInt = 0 := by
    rcases zero with rfl | rfl
    · exact zero_mul _
    · exact mul_zero _
  rw [product]
  decide

/-- `mul_overflows` by a 128-bit product finds the products that do not fit. -/
theorem mulOverflowsWide_eq (a b : Int64) :
    mulOverflowsWide a b = .ok (decide (¬FitsInt64 (a.toInt * b.toInt))) := by
  rw [mulOverflowsWide]
  split_ifs with zero
  · simp only [fitsInt64_mul_of_zero zero, not_true_eq_false, decide_false]
  · rw [mulWide_eq, ok_bind, minValue_toInt, maxValue_toInt, Except.ok.injEq, decide_eq_decide,
      FitsInt64]
    omega

/-- Absolute values are computed, except that of the least machine integer. -/
theorem machineAbs_eq
    {a : Int64}
    (notLeast : a ≠ Int64.minValue) :
    machineAbs a = .ok (Int64.ofInt |a.toInt|) := by
  obtain ⟨lower, upper⟩ := fitsInt64_toInt a
  have above : a.toInt ≠ -9223372036854775808 := by
    rw [← minValue_toInt]
    exact fun same => notLeast (Int64.toInt_inj.mp same)
  have zero : (0 : Int64).toInt = 0 := rfl
  rw [machineAbs]
  split_ifs with negative
  · rw [Int64.lt_iff_toInt_lt, zero] at negative
    rw [MachineInt.neg, ofExact_of_fits ⟨by omega, by omega⟩, abs_of_neg negative]
  · rw [Int64.lt_iff_toInt_lt, zero, not_lt] at negative
    rw [abs_of_nonneg negative, Int64.ofInt_toInt]

/-- The product of the operands is the least machine integer, and neither of them is. -/
def ProductIsLeast (a b : ℤ) : Prop :=
  a * b = -9223372036854775808 ∧ a ≠ -9223372036854775808 ∧ b ≠ -9223372036854775808

instance (a b : ℤ) : Decidable (ProductIsLeast a b) :=
  inferInstanceAs (Decidable (_ ∧ _))

/-- The quotient by the second operand bounds the first one when the product does. -/
theorem quotient_lt_iff
    {a b : ℤ}
    (nonzero : b ≠ 0) :
    Int.tdiv 9223372036854775807 |b| < |a| ↔ 9223372036854775807 < |a * b| := by
  rw [Int.tdiv_eq_ediv_of_nonneg (by decide), Int.ediv_lt_iff_lt_mul (abs_pos.mpr nonzero),
    abs_mul]

/-- The loop-free check by division reports one product too many. -/
theorem mulOverflowsPortable_eq (a b : Int64) :
    mulOverflowsPortable a b =
      .ok (decide (¬FitsInt64 (a.toInt * b.toInt) ∨ ProductIsLeast a.toInt b.toInt)) := by
  have least : ∀ word : Int64, word = Int64.minValue ↔ word.toInt = -9223372036854775808 := by
    intro word
    rw [← Int64.toInt_inj, minValue_toInt]
  have one : ∀ word : Int64, word = 1 ↔ word.toInt = 1 := by
    intro word
    rw [← Int64.toInt_inj]
    rfl
  rw [mulOverflowsPortable]
  split_ifs with zero aLeast bLeast
  · have product : a.toInt * b.toInt = 0 := by
      rcases zero with rfl | rfl
      · exact zero_mul _
      · exact mul_zero _
    have fits : FitsInt64 (0 : ℤ) := by decide
    simp [product, fits, ProductIsLeast]
  · rw [not_or, int64_eq_zero_iff, int64_eq_zero_iff] at zero
    rw [least] at aLeast
    rw [Except.ok.injEq, decide_eq_decide, Ne, one, aLeast, FitsInt64, ProductIsLeast]
    omega
  · rw [not_or, int64_eq_zero_iff, int64_eq_zero_iff] at zero
    rw [least] at bLeast
    rw [Except.ok.injEq, decide_eq_decide, Ne, one, bLeast, FitsInt64, ProductIsLeast]
    omega
  · rw [not_or, int64_eq_zero_iff, int64_eq_zero_iff] at zero
    have absFits : ∀ word : Int64, word ≠ Int64.minValue → FitsInt64 |word.toInt| := by
      intro word notLeast
      obtain ⟨lower, upper⟩ := fitsInt64_toInt word
      rw [Ne, least] at notLeast
      have bound : |word.toInt| ≤ 9223372036854775807 := abs_le.mpr ⟨by omega, upper⟩
      exact ⟨by have := abs_nonneg word.toInt; omega, bound⟩
    have quotientFits : FitsInt64 (Int.tdiv 9223372036854775807 |b.toInt|) := by
      rw [Int.tdiv_eq_ediv_of_nonneg (by decide)]
      exact ⟨by have := Int.ediv_nonneg (show 0 ≤ (9223372036854775807 : ℤ) by decide)
                  (abs_nonneg b.toInt); omega,
        Int.ediv_le_self _ (by decide)⟩
    rw [machineAbs_eq aLeast, machineAbs_eq bLeast, ok_bind, ok_bind, MachineInt.div,
      toInt_ofInt_of_fits (absFits b bLeast), if_neg (abs_ne_zero.mpr zero.2), maxValue_toInt,
      ofExact_of_fits quotientFits, ok_bind, limit_lt _ quotientFits,
      toInt_ofInt_of_fits (absFits a aLeast), Except.ok.injEq, decide_eq_decide,
      quotient_lt_iff zero.2, ProductIsLeast, FitsInt64, lt_abs]
    rw [least] at aLeast bLeast
    omega

end NumericaCore
