import Mathlib.Algebra.Order.Field.Rat
import Mathlib.Algebra.Order.Ring.Cast
import Mathlib.Data.Int.Cast.Lemmas
import Mathlib.Data.Rat.Lemmas
import Mathlib.Tactic.FieldSimp
import Stocas.Numerica.BigIntExact

namespace NumericaCore

open Outcome (ok_bind)

/-!
# Rational numbers

A `Rational` is a numerator and a denominator.  Every constructor with a denominator
reduces; what is reached from the constructors by the operators is in lowest terms with a
positive denominator, and such a pair is determined by the number that it represents.
-/

/-- `Rational`. -/
structure Rational where
  numerator : BigInt
  denominator : BigInt
  deriving DecidableEq

/-- `BigInt`'s `operator<`. -/
def BigInt.less (a b : BigInt) : Bool :=
  a.compare b == .lt

/-- `abs_value`. -/
def absValue (value : BigInt) : Machine BigInt :=
  if value.less (BigInt.ofInt64 0) then
    value.neg
  else
    .ok value

namespace Rational

/-- `Rational()`. -/
def zero : Rational :=
  ⟨BigInt.ofInt64 0, BigInt.ofInt64 1⟩

/-- `Rational(int64_t)`. -/
def ofInt64 (value : Int64) : Rational :=
  ⟨BigInt.ofInt64 value, BigInt.ofInt64 1⟩

/-- `Rational(BigInt)`. -/
def ofBigInt (value : BigInt) : Rational :=
  ⟨value, BigInt.ofInt64 1⟩

/-- The sign normalization at the start of `reduce`. -/
def withPositiveDenominator (number : Rational) : Machine Rational :=
  if number.denominator.less (BigInt.ofInt64 0) then do
    .ok ⟨← number.numerator.neg, ← number.denominator.neg⟩
  else
    .ok number

/-- `reduce`. -/
def reduce (number : Rational) : Machine Rational := do
  let number ← number.withPositiveDenominator
  if number.numerator.equals (BigInt.ofInt64 0) then
    .ok ⟨number.numerator, BigInt.ofInt64 1⟩
  else
    let g := (← absValue number.numerator).gcd number.denominator
    if g.equals (BigInt.ofInt64 1) then
      .ok number
    else
      .ok ⟨← number.numerator.div g, ← number.denominator.div g⟩

/-- `Rational(BigInt, BigInt)`. -/
def ofFraction (numerator denominator : BigInt) : Machine Rational :=
  if denominator.equals (BigInt.ofInt64 0) then
    .error (.domainError "Rational: zero denominator".toList)
  else
    reduce ⟨numerator, denominator⟩

section Operators

variable (hasInt128 : Bool)

/-- `operator+`. -/
def add (a b : Rational) : Machine Rational := do
  let left ← a.numerator.mul hasInt128 b.denominator
  let right ← b.numerator.mul hasInt128 a.denominator
  ofFraction (← left.add right) (← a.denominator.mul hasInt128 b.denominator)

/-- `operator-`. -/
def sub (a b : Rational) : Machine Rational := do
  let left ← a.numerator.mul hasInt128 b.denominator
  let right ← b.numerator.mul hasInt128 a.denominator
  ofFraction (← left.sub right) (← a.denominator.mul hasInt128 b.denominator)

/-- `operator*`. -/
def mul (a b : Rational) : Machine Rational := do
  ofFraction (← a.numerator.mul hasInt128 b.numerator)
    (← a.denominator.mul hasInt128 b.denominator)

/-- `operator/`. -/
def div (a b : Rational) : Machine Rational :=
  if b.numerator.equals (BigInt.ofInt64 0) then
    .error (.domainError "Rational: division by zero".toList)
  else do
    ofFraction (← a.numerator.mul hasInt128 b.denominator)
      (← a.denominator.mul hasInt128 b.numerator)

/-- Unary `operator-`. -/
def neg (a : Rational) : Machine Rational := do
  ofFraction (← a.numerator.neg) a.denominator

/-- `inv`. -/
def inv (a : Rational) : Machine Rational :=
  if a.numerator.equals (BigInt.ofInt64 0) then
    .error (.domainError "Rational: inverse of zero".toList)
  else
    ofFraction a.denominator a.numerator

/-- `operator==`. -/
def equals (a b : Rational) : Bool :=
  a.numerator.equals b.numerator && a.denominator.equals b.denominator

/-- `operator<=>`. -/
def compare (a b : Rational) : Machine Ordering := do
  let left ← a.numerator.mul hasInt128 b.denominator
  let right ← b.numerator.mul hasInt128 a.denominator
  .ok (left.compare right)

end Operators

/-- What the constructors and the operators make. -/
inductive Reachable (hasInt128 : Bool) : Rational → Prop where
  | zero :
      Reachable hasInt128 zero
  | ofInt64 (value : Int64) :
      Reachable hasInt128 (ofInt64 value)
  | ofBigInt (value : BigInt) :
      Reachable hasInt128 (ofBigInt value)
  | ofFraction
      {numerator denominator : BigInt}
      {result : Rational} :
      Rational.ofFraction numerator denominator = .ok result →
      Reachable hasInt128 result
  | add
      {a b result : Rational} :
      Reachable hasInt128 a →
      Reachable hasInt128 b →
      a.add hasInt128 b = .ok result →
      Reachable hasInt128 result
  | sub
      {a b result : Rational} :
      Reachable hasInt128 a →
      Reachable hasInt128 b →
      a.sub hasInt128 b = .ok result →
      Reachable hasInt128 result
  | mul
      {a b result : Rational} :
      Reachable hasInt128 a →
      Reachable hasInt128 b →
      a.mul hasInt128 b = .ok result →
      Reachable hasInt128 result
  | div
      {a b result : Rational} :
      Reachable hasInt128 a →
      Reachable hasInt128 b →
      a.div hasInt128 b = .ok result →
      Reachable hasInt128 result
  | neg
      {a result : Rational} :
      Reachable hasInt128 a →
      a.neg = .ok result →
      Reachable hasInt128 result
  | inv
      {a result : Rational} :
      Reachable hasInt128 a →
      a.inv = .ok result →
      Reachable hasInt128 result

/-- The rational number. -/
def value (number : Rational) : ℚ :=
  number.numerator.value / number.denominator.value

/-- Lowest terms, with a positive denominator; zero is `0/1`. -/
structure Reduced (number : Rational) : Prop where
  positive : 0 < number.denominator.value
  coprime : Int.gcd number.numerator.value number.denominator.value = 1
  zero : number.numerator.value = 0 → number.denominator.value = 1

/-- The pair in lowest terms that represents a rational number. -/
def ofRat (exact : ℚ) : Rational :=
  ⟨BigInt.demote exact.num, BigInt.demote exact.den⟩

theorem value_ofRat (exact : ℚ) :
    (ofRat exact).value = exact := by
  rw [value, ofRat, BigInt.value_demote, BigInt.value_demote, Int.cast_natCast]
  exact exact.num_div_den

theorem reduced_ofRat (exact : ℚ) : (ofRat exact).Reduced where
  positive := by
    rw [ofRat, BigInt.value_demote]
    exact Int.natCast_pos.mpr exact.pos
  coprime := by
    rw [ofRat, BigInt.value_demote, BigInt.value_demote]
    exact exact.reduced
  zero := by
    rw [ofRat, BigInt.value_demote, BigInt.value_demote, Rat.num_eq_zero]
    rintro rfl
    rfl

/-- Numerator and denominator in lowest terms are those of the number. -/
theorem eq_ofRat
    {numerator denominator : BigInt}
    (positive : 0 < denominator.value)
    (coprime : Int.gcd numerator.value denominator.value = 1) :
    (⟨numerator, denominator⟩ : Rational) = ofRat (numerator.value / denominator.value) := by
  rw [ofRat, Rat.num_div_eq_of_coprime positive coprime,
    Rat.den_div_eq_of_coprime positive coprime, BigInt.demote_value, BigInt.demote_value]

/-- A reduced pair is determined by the number that it represents. -/
theorem Reduced.eq_ofRat
    {number : Rational}
    (reduced : number.Reduced) :
    number = ofRat number.value :=
  Rational.eq_ofRat reduced.positive reduced.coprime

end Rational

theorem BigInt.less_iff (a b : BigInt) :
    a.less b = true ↔ a.value < b.value := by
  rw [BigInt.less, beq_iff_eq, BigInt.compare_eq]
  exact compare_lt_iff_lt

/-- The value of a small constant. -/
theorem BigInt.value_ofInt64_zero : (BigInt.ofInt64 0).value = 0 :=
  rfl

theorem BigInt.value_ofInt64_one : (BigInt.ofInt64 1).value = 1 :=
  rfl

theorem absValue_eq (number : BigInt) :
    absValue number = .ok (BigInt.demote |number.value|) := by
  rw [absValue]
  split_ifs with negative
  · rw [BigInt.less_iff, BigInt.value_ofInt64_zero] at negative
    rw [BigInt.neg_eq, abs_of_neg negative]
  · rw [BigInt.less_iff, BigInt.value_ofInt64_zero, not_lt] at negative
    rw [abs_of_nonneg negative, BigInt.demote_value]

namespace Rational

/-- Changing both signs changes nothing but the sign of the denominator. -/
theorem withPositiveDenominator_spec
    {number : Rational}
    (nonzero : number.denominator.value ≠ 0) :
    ∃ signed,
      number.withPositiveDenominator = .ok signed ∧
        0 < signed.denominator.value ∧
        signed.value = number.value := by
  rw [withPositiveDenominator]
  split_ifs with negative
  · rw [BigInt.less_iff, BigInt.value_ofInt64_zero] at negative
    rw [BigInt.neg_eq, BigInt.neg_eq]
    refine ⟨_, rfl, ?_, ?_⟩
    · rw [BigInt.value_demote]
      exact neg_pos.mpr negative
    · rw [value, value, BigInt.value_demote, BigInt.value_demote, Int.cast_neg, Int.cast_neg,
        neg_div_neg_eq]
  · rw [BigInt.less_iff, BigInt.value_ofInt64_zero, not_lt] at negative
    exact ⟨number, rfl, lt_of_le_of_ne negative (Ne.symm nonzero), rfl⟩

/-- Division by the greatest common divisor leads to lowest terms. -/
theorem divided_eq_ofRat
    {numerator denominator : BigInt}
    (positive : 0 < denominator.value) :
    (do
        let g := (← absValue numerator).gcd denominator
        if g.equals (BigInt.ofInt64 1) then
          .ok ⟨numerator, denominator⟩
        else
          .ok ⟨← numerator.div g, ← denominator.div g⟩ : Machine Rational) =
      .ok (ofRat (numerator.value / denominator.value)) := by
  have gcdPositive : 0 < Int.gcd numerator.value denominator.value :=
    Int.gcd_pos_of_ne_zero_right _ (ne_of_gt positive)
  have gcdValue :
      ((BigInt.demote |numerator.value|).gcd denominator).value =
        Int.gcd numerator.value denominator.value := by
    rw [BigInt.gcd, BigInt.value_demote, BigInt.value_demote, Int.gcd, Int.natAbs_abs, Int.gcd]
  rw [absValue_eq, ok_bind]
  generalize (BigInt.demote |numerator.value|).gcd denominator = g at gcdValue
  simp only
  split_ifs with isOne
  · rw [BigInt.equals_iff, gcdValue, BigInt.value_ofInt64_one] at isOne
    rw [eq_ofRat positive (by exact_mod_cast isOne)]
  · have nonzero : g.value ≠ 0 := by
      rw [gcdValue]
      exact_mod_cast ne_of_gt gcdPositive
    obtain ⟨numeratorPart, denominatorPart, coprime, numerator_eq, denominator_eq⟩ :=
      Int.exists_gcd_one gcdPositive
    rw [← gcdValue] at numerator_eq denominator_eq
    have numeratorQuotient : numerator.value.tdiv g.value = numeratorPart := by
      rw [numerator_eq]
      exact Int.mul_tdiv_cancel _ nonzero
    have denominatorQuotient : denominator.value.tdiv g.value = denominatorPart := by
      rw [denominator_eq]
      exact Int.mul_tdiv_cancel _ nonzero
    have gPositive : 0 < g.value := by
      rw [gcdValue]
      exact_mod_cast gcdPositive
    have partPositive : 0 < denominatorPart := by
      rw [denominator_eq] at positive
      exact (pos_iff_pos_of_mul_pos positive).mpr gPositive
    have lowest := @eq_ofRat (BigInt.demote numeratorPart) (BigInt.demote denominatorPart)
      (by rwa [BigInt.value_demote]) (by rwa [BigInt.value_demote, BigInt.value_demote])
    rw [BigInt.value_demote, BigInt.value_demote] at lowest
    have sameNumber :
        (numerator.value : ℚ) / denominator.value = numeratorPart / denominatorPart := by
      rw [numerator_eq, denominator_eq, Int.cast_mul, Int.cast_mul]
      exact mul_div_mul_right _ _ (by exact_mod_cast nonzero)
    rw [BigInt.div_eq nonzero, BigInt.div_eq nonzero, ok_bind, ok_bind, numeratorQuotient,
      denominatorQuotient, lowest, sameNumber]

/-- `reduce` finds the pair in lowest terms. -/
theorem reduce_eq
    {number : Rational}
    (nonzero : number.denominator.value ≠ 0) :
    number.reduce = .ok (ofRat number.value) := by
  obtain ⟨⟨numerator, denominator⟩, signed_eq, positive, sameValue⟩ :=
    withPositiveDenominator_spec nonzero
  rw [reduce, signed_eq, ok_bind, ← sameValue]
  simp only
  split_ifs with isZero
  · rw [BigInt.equals_iff, BigInt.value_ofInt64_zero] at isZero
    have value_zero : (⟨numerator, denominator⟩ : Rational).value = 0 := by
      rw [value, isZero, Int.cast_zero, zero_div]
    have numerator_zero : numerator = BigInt.ofInt64 0 := BigInt.value_injective isZero
    rw [value_zero, numerator_zero]
    rfl
  · exact divided_eq_ofRat positive

/-- The constructor throws for a zero denominator. -/
theorem ofFraction_zero
    (numerator : BigInt)
    {denominator : BigInt}
    (zero : denominator.value = 0) :
    ofFraction numerator denominator =
      .error (.domainError "Rational: zero denominator".toList) :=
  if_pos ((BigInt.equals_zero_iff denominator).mpr zero)

/-- For any other denominator it makes the quotient. -/
theorem ofFraction_eq
    {numerator denominator : BigInt}
    (nonzero : denominator.value ≠ 0) :
    ofFraction numerator denominator =
      .ok (ofRat (numerator.value / denominator.value)) := by
  rw [ofFraction, if_neg]
  · exact reduce_eq nonzero
  · rw [BigInt.equals_iff, BigInt.value_ofInt64_zero]
    exact nonzero

section Operators

variable {hasInt128 : Bool} {a b : Rational}

/-- The denominator of a reduced pair is not zero, as a rational number. -/
theorem Reduced.cast_ne_zero
    (reduced : a.Reduced) :
    (a.denominator.value : ℚ) ≠ 0 :=
  Int.cast_ne_zero.mpr (ne_of_gt reduced.positive)

/-- The product of two denominators is not zero. -/
theorem Reduced.mul_ne_zero
    (reduced : a.Reduced)
    (otherReduced : b.Reduced) :
    (BigInt.demote (a.denominator.value * b.denominator.value)).value ≠ 0 := by
  rw [BigInt.value_demote]
  exact ne_of_gt (mul_pos reduced.positive otherReduced.positive)

theorem Reduced.numerator_eq_zero_iff
    (reduced : a.Reduced) :
    a.numerator.value = 0 ↔ a.value = 0 := by
  rw [value, div_eq_zero_iff, or_iff_left reduced.cast_ne_zero, Int.cast_eq_zero]

theorem add_eq
    (aReduced : a.Reduced)
    (bReduced : b.Reduced) :
    a.add hasInt128 b = .ok (ofRat (a.value + b.value)) := by
  rw [add, BigInt.mul_eq, ok_bind, BigInt.mul_eq, ok_bind, BigInt.add_eq, ok_bind,
    BigInt.mul_eq, ok_bind, ofFraction_eq (aReduced.mul_ne_zero bReduced)]
  simp only [BigInt.value_demote, value, Int.cast_add, Int.cast_mul]
  rw [div_add_div _ _ aReduced.cast_ne_zero bReduced.cast_ne_zero,
    mul_comm (a.denominator.value : ℚ) (b.numerator.value : ℚ)]

theorem sub_eq
    (aReduced : a.Reduced)
    (bReduced : b.Reduced) :
    a.sub hasInt128 b = .ok (ofRat (a.value - b.value)) := by
  rw [sub, BigInt.mul_eq, ok_bind, BigInt.mul_eq, ok_bind, BigInt.sub_eq, ok_bind,
    BigInt.mul_eq, ok_bind, ofFraction_eq (aReduced.mul_ne_zero bReduced)]
  simp only [BigInt.value_demote, value, Int.cast_sub, Int.cast_mul]
  rw [div_sub_div _ _ aReduced.cast_ne_zero bReduced.cast_ne_zero,
    mul_comm (a.denominator.value : ℚ) (b.numerator.value : ℚ)]

theorem mul_eq
    (aReduced : a.Reduced)
    (bReduced : b.Reduced) :
    a.mul hasInt128 b = .ok (ofRat (a.value * b.value)) := by
  rw [mul, BigInt.mul_eq, ok_bind, BigInt.mul_eq, ok_bind,
    ofFraction_eq (aReduced.mul_ne_zero bReduced)]
  simp only [BigInt.value_demote, value, Int.cast_mul]
  rw [div_mul_div_comm]

theorem neg_eq
    (aReduced : a.Reduced) :
    a.neg = .ok (ofRat (-a.value)) := by
  rw [neg, BigInt.neg_eq, ok_bind, ofFraction_eq (ne_of_gt aReduced.positive)]
  simp only [BigInt.value_demote, value, Int.cast_neg]
  rw [neg_div]

theorem div_eq
    (aReduced : a.Reduced)
    (bReduced : b.Reduced)
    (nonzero : b.value ≠ 0) :
    a.div hasInt128 b = .ok (ofRat (a.value / b.value)) := by
  have numerator_ne : b.numerator.value ≠ 0 :=
    fun isZero => nonzero (bReduced.numerator_eq_zero_iff.mp isZero)
  have notZero : ¬b.numerator.equals (BigInt.ofInt64 0) = true := by
    rw [BigInt.equals_iff]
    exact numerator_ne
  have product_ne :
      (BigInt.demote (a.denominator.value * b.numerator.value)).value ≠ 0 := by
    rw [BigInt.value_demote]
    exact mul_ne_zero (ne_of_gt aReduced.positive) numerator_ne
  rw [div, if_neg notZero, BigInt.mul_eq, ok_bind, BigInt.mul_eq, ok_bind,
    ofFraction_eq product_ne]
  simp only [BigInt.value_demote, value, Int.cast_mul]
  rw [div_div_div_eq]

theorem div_zero
    (bReduced : b.Reduced)
    (zero : b.value = 0) :
    a.div hasInt128 b = .error (.domainError "Rational: division by zero".toList) := by
  apply if_pos
  rw [BigInt.equals_iff]
  exact bReduced.numerator_eq_zero_iff.mpr zero

theorem inv_eq
    (aReduced : a.Reduced)
    (nonzero : a.value ≠ 0) :
    a.inv = .ok (ofRat a.value⁻¹) := by
  have numerator_ne : a.numerator.value ≠ 0 :=
    fun isZero => nonzero (aReduced.numerator_eq_zero_iff.mp isZero)
  have notZero : ¬a.numerator.equals (BigInt.ofInt64 0) = true := by
    rw [BigInt.equals_iff]
    exact numerator_ne
  rw [inv, if_neg notZero, ofFraction_eq numerator_ne, value, inv_div]

theorem inv_zero
    (aReduced : a.Reduced)
    (zero : a.value = 0) :
    a.inv = .error (.domainError "Rational: inverse of zero".toList) := by
  apply if_pos
  rw [BigInt.equals_iff]
  exact aReduced.numerator_eq_zero_iff.mpr zero

/-- `operator==` compares the numbers that are represented. -/
theorem equals_iff
    (aReduced : a.Reduced)
    (bReduced : b.Reduced) :
    a.equals b = true ↔ a.value = b.value := by
  rw [equals, Bool.and_eq_true, BigInt.equals_iff, BigInt.equals_iff]
  constructor
  · rintro ⟨numerators, denominators⟩
    rw [value, value, numerators, denominators]
  · intro same
    rw [aReduced.eq_ofRat, bReduced.eq_ofRat, same]
    exact ⟨rfl, rfl⟩

/-- Comparisons agree when the two strict orders do. -/
theorem compare_congr
    {α β : Type*}
    [LinearOrder α]
    [LinearOrder β]
    {x y : α}
    {u v : β}
    (below : x < y ↔ u < v)
    (above : y < x ↔ v < u) :
    Ord.compare x y = Ord.compare u v := by
  rcases lt_trichotomy x y with less | rfl | greater
  · rw [compare_lt_iff_lt.mpr less, compare_lt_iff_lt.mpr (below.mp less)]
  · have same : u = v :=
      le_antisymm (not_lt.mp fun greater => lt_irrefl _ (above.mpr greater))
        (not_lt.mp fun less => lt_irrefl _ (below.mpr less))
    rw [compare_eq_iff_eq.mpr rfl, compare_eq_iff_eq.mpr same]
  · rw [compare_gt_iff_gt.mpr greater, compare_gt_iff_gt.mpr (above.mp greater)]

/-- Cross multiplication compares quotients with positive denominators. -/
theorem div_lt_div_iff_cast
    {m n p q : ℤ}
    (nPositive : 0 < n)
    (qPositive : 0 < q) :
    m * q < p * n ↔ (m : ℚ) / n < (p : ℚ) / q := by
  rw [div_lt_div_iff₀ (Int.cast_pos.mpr nPositive) (Int.cast_pos.mpr qPositive),
    ← Int.cast_mul, ← Int.cast_mul, Int.cast_lt]

/-- `operator<=>` is the order of the numbers that are represented. -/
theorem compare_eq
    (aReduced : a.Reduced)
    (bReduced : b.Reduced) :
    a.compare hasInt128 b = .ok (Ord.compare a.value b.value) := by
  rw [compare, BigInt.mul_eq, ok_bind, BigInt.mul_eq, ok_bind, BigInt.compare_eq,
    BigInt.value_demote, BigInt.value_demote,
    compare_congr (div_lt_div_iff_cast aReduced.positive bReduced.positive)
      (div_lt_div_iff_cast bReduced.positive aReduced.positive)]
  rfl

theorem reduced_integer (number : BigInt) :
    Reduced ⟨number, BigInt.ofInt64 1⟩ where
  positive := Int.one_pos
  coprime := Int.gcd_one_right _
  zero := fun _ => rfl

/-- An operator that succeeds with the pair of a number returns a reduced pair. -/
theorem Reduced.of_eq
    {result : Rational}
    {exact : ℚ}
    (returned : (.ok (ofRat exact) : Machine Rational) = .ok result) :
    result.Reduced := by
  cases returned
  exact reduced_ofRat exact

/-- What the constructors and the operators make is in lowest terms. -/
theorem Reachable.reduced
    {number : Rational}
    (reachable : Reachable hasInt128 number) :
    number.Reduced := by
  induction reachable with
  | zero | ofInt64 | ofBigInt =>
      exact reduced_integer _
  | @ofFraction numerator denominator result returned =>
      by_cases isZero : denominator.value = 0
      · rw [ofFraction_zero numerator isZero] at returned
        cases returned
      · rw [ofFraction_eq isZero] at returned
        exact .of_eq returned
  | add _ _ returned aReduced bReduced =>
      rw [add_eq aReduced bReduced] at returned
      exact .of_eq returned
  | sub _ _ returned aReduced bReduced =>
      rw [sub_eq aReduced bReduced] at returned
      exact .of_eq returned
  | mul _ _ returned aReduced bReduced =>
      rw [mul_eq aReduced bReduced] at returned
      exact .of_eq returned
  | @div a b result _ _ returned aReduced bReduced =>
      by_cases isZero : b.value = 0
      · rw [div_zero bReduced isZero] at returned
        cases returned
      · rw [div_eq aReduced bReduced isZero] at returned
        exact .of_eq returned
  | neg _ returned aReduced =>
      rw [neg_eq aReduced] at returned
      exact .of_eq returned
  | @inv a result _ returned aReduced =>
      by_cases isZero : a.value = 0
      · rw [inv_zero aReduced isZero] at returned
        cases returned
      · rw [inv_eq aReduced isZero] at returned
        exact .of_eq returned

/-- The computation returns a reduced pair for this number. -/
def Computes (result : Machine Rational) (exact : ℚ) : Prop :=
  ∃ number, result = .ok number ∧ number.Reduced ∧ number.value = exact

theorem computes_ofRat (exact : ℚ) :
    Computes (.ok (ofRat exact)) exact :=
  ⟨ofRat exact, rfl, reduced_ofRat exact, value_ofRat exact⟩

/-- The operators on two rational numbers. -/
structure ExactOperators (hasInt128 : Bool) (a b : Rational) : Prop where
  add : Computes (a.add hasInt128 b) (a.value + b.value)
  sub : Computes (a.sub hasInt128 b) (a.value - b.value)
  mul : Computes (a.mul hasInt128 b) (a.value * b.value)
  neg : Computes a.neg (-a.value)
  div : b.value ≠ 0 → Computes (a.div hasInt128 b) (a.value / b.value)
  div_zero :
    b.value = 0 →
    a.div hasInt128 b = .error (.domainError "Rational: division by zero".toList)
  inv : a.value ≠ 0 → Computes a.inv a.value⁻¹
  inv_zero : a.value = 0 → a.inv = .error (.domainError "Rational: inverse of zero".toList)
  equals : a.equals b = true ↔ a.value = b.value
  compare : a.compare hasInt128 b = .ok (Ord.compare a.value b.value)
  compare_eq : a.compare hasInt128 b = .ok .eq ↔ a.equals b = true

/--
What is reached from the constructors is in lowest terms; the operators on it are exact,
`operator==` is equality of the numbers and `operator<=>` their order.
-/
theorem reachable_exactOperators
    (aReachable : Reachable hasInt128 a)
    (bReachable : Reachable hasInt128 b) :
    a.Reduced ∧ ExactOperators hasInt128 a b := by
  have aReduced := aReachable.reduced
  have bReduced := bReachable.reduced
  refine ⟨aReduced, ?_⟩
  constructor
  · rw [add_eq aReduced bReduced]
    exact computes_ofRat _
  · rw [sub_eq aReduced bReduced]
    exact computes_ofRat _
  · rw [mul_eq aReduced bReduced]
    exact computes_ofRat _
  · rw [neg_eq aReduced]
    exact computes_ofRat _
  · intro nonzero
    rw [div_eq aReduced bReduced nonzero]
    exact computes_ofRat _
  · exact div_zero bReduced
  · intro nonzero
    rw [inv_eq aReduced nonzero]
    exact computes_ofRat _
  · exact inv_zero aReduced
  · exact equals_iff aReduced bReduced
  · exact compare_eq aReduced bReduced
  · rw [compare_eq aReduced bReduced, equals_iff aReduced bReduced, Except.ok.injEq]
    exact compare_eq_iff_eq

/-- `1/2` made from `-2` and `-4`, and the integer 3. -/
theorem reachable_exactOperators_half :
    (ofRat (1 / 2)).Reduced ∧ ExactOperators true (ofRat (1 / 2)) (ofInt64 3) :=
  reachable_exactOperators
    (@Reachable.ofFraction true (BigInt.ofInt64 (-2)) (BigInt.ofInt64 (-4)) _
      (by decide +kernel))
    (.ofInt64 3)

end Operators

end Rational

end NumericaCore
