import Stocas.Numerica.BigInt

namespace NumericaCore

open MachineInt (ofExact ofExact_of_fits)
open Outcome (ok_bind)

/-!
# Every operator is exact

Each operator returns the number of the exact result: the fast path is taken where the
result is representable, and the slow path returns to the inline form when it can.
-/

namespace BigInt

@[simp] theorem value_demote (exact : ℤ) :
    (demote exact).value = exact := by
  rw [demote]
  split_ifs with fits
  · exact toInt_ofInt_of_fits fits
  · rfl

/-- A number is stored inline exactly when its value fits. -/
theorem isSmall_iff (number : BigInt) :
    number.isSmall = true ↔ FitsInt64 number.value := by
  cases number with
  | small inline =>
      exact ⟨fun _ => fitsInt64_toInt inline, fun _ => rfl⟩
  | big exact outside =>
      exact ⟨fun inline => Bool.noConfusion inline, fun fits => absurd fits outside⟩

theorem value_injective : Function.Injective value := by
  intro a b same
  cases a with
  | small inline =>
      cases b with
      | small other =>
          rw [Int64.toInt_inj.mp same]
      | big exact outside =>
          have sameValue : inline.toInt = exact := same
          rw [← sameValue] at outside
          exact absurd (fitsInt64_toInt inline) outside
  | big exact outside =>
      cases b with
      | small other =>
          have sameValue : exact = other.toInt := same
          rw [sameValue] at outside
          exact absurd (fitsInt64_toInt other) outside
      | big other _ =>
          have sameValue : exact = other := same
          subst sameValue
          rfl

@[simp] theorem demote_value (number : BigInt) :
    demote number.value = number :=
  value_injective (value_demote number.value)

/-- The inline form of a representable value. -/
theorem ofInt64_eq_demote
    {exact : ℤ}
    (fits : FitsInt64 exact) :
    ofInt64 (Int64.ofInt exact) = demote exact := by
  rw [demote, dif_pos fits, ofInt64]

/-- A computed inline result is the number of the exact value. -/
theorem ofInt64_of_fits
    {exact : ℤ}
    (fits : FitsInt64 exact) :
    (do .ok (ofInt64 (← ofExact exact))) = (.ok (demote exact) : Machine BigInt) := by
  rw [ofExact_of_fits fits, ok_bind, ofInt64_eq_demote fits]

theorem add_eq (a b : BigInt) :
    a.add b = .ok (demote (a.value + b.value)) := by
  cases a with
  | big exact outside =>
      rfl
  | small a =>
      cases b with
      | big exact outside =>
          rfl
      | small b =>
          simp only [add, addOverflows_eq, ok_bind, decide_eq_true_eq, value]
          split_ifs with fits
          · exact ofInt64_of_fits fits
          · rfl

theorem sub_eq (a b : BigInt) :
    a.sub b = .ok (demote (a.value - b.value)) := by
  cases a with
  | big exact outside =>
      rfl
  | small a =>
      cases b with
      | big exact outside =>
          rfl
      | small b =>
          simp only [sub, subOverflows_eq, ok_bind, decide_eq_true_eq, value]
          split_ifs with fits
          · exact ofInt64_of_fits fits
          · rfl

/-- Either check sends every product that does not fit to the slow path. -/
theorem mulOverflows_eq
    (hasInt128 : Bool)
    (a b : Int64) :
    ∃ overflows : Bool,
      mulOverflows hasInt128 a b = .ok overflows ∧
        (overflows = false → FitsInt64 (a.toInt * b.toInt)) := by
  cases hasInt128 with
  | true =>
      refine ⟨_, mulOverflowsWide_eq a b, ?_⟩
      simp
  | false =>
      refine ⟨_, mulOverflowsPortable_eq a b, ?_⟩
      simp only [decide_eq_false_iff_not, not_or, not_not]
      exact And.left

theorem mul_eq
    (hasInt128 : Bool)
    (a b : BigInt) :
    a.mul hasInt128 b = .ok (demote (a.value * b.value)) := by
  cases a with
  | big exact outside =>
      rfl
  | small a =>
      cases b with
      | big exact outside =>
          rfl
      | small b =>
          obtain ⟨overflows, checked, fits⟩ := mulOverflows_eq hasInt128 a b
          simp only [mul, checked, ok_bind, value]
          cases overflows with
          | true =>
              rfl
          | false =>
              exact ofInt64_of_fits (fits rfl)

theorem compare_eq (a b : BigInt) :
    a.compare b = Ord.compare a.value b.value := by
  cases a <;> cases b <;> rfl

theorem equals_iff (a b : BigInt) :
    a.equals b = true ↔ a.value = b.value := by
  rw [equals, beq_iff_eq, compare_eq]
  exact compare_eq_iff_eq

/-- The test for a zero divisor. -/
theorem equals_zero_iff (number : BigInt) :
    number.equals (ofInt64 0) = true ↔ number.value = 0 :=
  equals_iff number (ofInt64 0)

/-- A quotient of machine integers fits, except the one that overflows. -/
theorem fitsInt64_tdiv
    {a b : Int64}
    (nonzero : b.toInt ≠ 0)
    (regular : ¬(a = Int64.minValue ∧ b = -1)) :
    FitsInt64 (a.toInt.tdiv b.toInt) := by
  obtain ⟨lower, upper⟩ := fitsInt64_toInt a
  have size : (a.toInt.tdiv b.toInt).natAbs = a.toInt.natAbs / b.toInt.natAbs :=
    Int.natAbs_tdiv _ _
  by_cases one : b.toInt.natAbs = 1
  · rcases Int.natAbs_eq_iff.mp one with plus | minus
    · rw [plus, Nat.cast_one, Int.tdiv_one]
      exact ⟨lower, upper⟩
    · have bMinus : b = -1 := Int64.toInt_inj.mp minus
      have aAbove : a.toInt ≠ -9223372036854775808 :=
        fun least => regular ⟨Int64.toInt_inj.mp least, bMinus⟩
      rw [minus, Nat.cast_one, Int.tdiv_neg, Int.tdiv_one]
      exact ⟨by omega, by omega⟩
  · have two : 2 ≤ b.toInt.natAbs := by
      have positive := Int.natAbs_pos.mpr nonzero
      omega
    have half : a.toInt.natAbs / b.toInt.natAbs ≤ a.toInt.natAbs / 2 :=
      Nat.div_le_div_left two (by decide)
    exact ⟨by omega, by omega⟩

/-- A remainder of machine integers fits. -/
theorem fitsInt64_tmod
    {a b : Int64}
    (nonzero : b.toInt ≠ 0) :
    FitsInt64 (a.toInt.tmod b.toInt) := by
  obtain ⟨lower, upper⟩ := fitsInt64_toInt b
  have size := Int.natAbs_tmod a.toInt b.toInt
  have below := Nat.mod_lt a.toInt.natAbs (Int.natAbs_pos.mpr nonzero)
  exact ⟨by omega, by omega⟩

theorem div_eq
    {a b : BigInt}
    (nonzero : b.value ≠ 0) :
    a.div b = .ok (demote (a.value.tdiv b.value)) := by
  have notZero : ¬b.equals (ofInt64 0) = true :=
    fun isZero => nonzero ((equals_zero_iff b).mp isZero)
  cases a with
  | big exact outside =>
      exact if_neg notZero
  | small a =>
      cases b with
      | big exact outside =>
          exact if_neg notZero
      | small b =>
          refine (if_neg notZero).trans ?_
          by_cases overflows : a = Int64.minValue ∧ b = -1
          · exact if_pos overflows
          · refine (if_neg overflows).trans ?_
            rw [MachineInt.div, if_neg (show b.toInt ≠ 0 from nonzero)]
            exact ofInt64_of_fits (fitsInt64_tdiv nonzero overflows)

theorem rem_eq
    {a b : BigInt}
    (nonzero : b.value ≠ 0) :
    a.rem b = .ok (demote (a.value.tmod b.value)) := by
  have notZero : ¬b.equals (ofInt64 0) = true :=
    fun isZero => nonzero ((equals_zero_iff b).mp isZero)
  cases a with
  | big exact outside =>
      exact if_neg notZero
  | small a =>
      cases b with
      | big exact outside =>
          exact if_neg notZero
      | small b =>
          refine (if_neg notZero).trans ?_
          by_cases overflows : a = Int64.minValue ∧ b = -1
          · exact if_pos overflows
          · refine (if_neg overflows).trans ?_
            have regular :
                ¬(b.toInt = 0 ∨ ¬FitsInt64 (a.toInt.tdiv b.toInt)) :=
              not_or.mpr ⟨nonzero, not_not.mpr (fitsInt64_tdiv nonzero overflows)⟩
            rw [MachineInt.rem, if_neg regular]
            exact ofInt64_of_fits (fitsInt64_tmod nonzero)

theorem div_zero
    {a b : BigInt}
    (zero : b.value = 0) :
    a.div b = .error (.domainError "BigInt: division by zero".toList) :=
  if_pos ((equals_zero_iff b).mpr zero)

theorem rem_zero
    {a b : BigInt}
    (zero : b.value = 0) :
    a.rem b = .error (.domainError "BigInt: modulo by zero".toList) :=
  if_pos ((equals_zero_iff b).mpr zero)

theorem neg_eq (a : BigInt) :
    a.neg = .ok (demote (-a.value)) := by
  cases a with
  | big exact outside =>
      rfl
  | small a =>
      obtain ⟨lower, upper⟩ := fitsInt64_toInt a
      simp only [neg, value]
      split_ifs with regular
      · have above : a.toInt ≠ -9223372036854775808 :=
          fun least => regular (Int64.toInt_inj.mp least)
        exact ofInt64_of_fits ⟨by omega, by omega⟩
      · rfl

/-- The computation returns a number with this value, inline exactly when it fits. -/
def Computes (result : Machine BigInt) (exact : ℤ) : Prop :=
  ∃ number,
    result = .ok number ∧
      number.value = exact ∧
      (number.isSmall = true ↔ FitsInt64 exact)

theorem computes_demote (exact : ℤ) :
    Computes (.ok (demote exact)) exact := by
  refine ⟨demote exact, rfl, value_demote exact, ?_⟩
  rw [isSmall_iff, value_demote]

/-- The operators on two numbers, where `mpz_gcdext` is given. -/
structure ExactOperators
    (hasInt128 : Bool)
    (gcdext : ℤ → ℤ → ℤ × ℤ × ℤ)
    (a b : BigInt) : Prop where
  add : Computes (a.add b) (a.value + b.value)
  sub : Computes (a.sub b) (a.value - b.value)
  mul : Computes (a.mul hasInt128 b) (a.value * b.value)
  neg : Computes a.neg (-a.value)
  div : b.value ≠ 0 → Computes (a.div b) (a.value.tdiv b.value)
  div_zero : b.value = 0 → a.div b = .error (.domainError "BigInt: division by zero".toList)
  rem : b.value ≠ 0 → Computes (a.rem b) (a.value.tmod b.value)
  rem_zero : b.value = 0 → a.rem b = .error (.domainError "BigInt: modulo by zero".toList)
  equals : a.equals b = true ↔ a.value = b.value
  compare : a.compare b = Ord.compare a.value b.value
  gcd : Computes (.ok (a.gcd b)) (Int.gcd a.value b.value)
  /-- The coefficients of `extended_gcd`. -/
  extendedGcd :
    ∃ g x y,
      a.extendedGcd gcdext b = (g, x, y) ∧
        Computes (.ok g) (Int.gcd a.value b.value) ∧
        a.value * x.value + b.value * y.value = g.value ∧
        (x.isSmall = true ↔ FitsInt64 x.value) ∧
        (y.isSmall = true ↔ FitsInt64 y.value)

/-- Both variants of `mul_overflows` agree on the operands, if these are inline. -/
def UniformOverflow (a b : BigInt) : Prop :=
  ∀ inlineA inlineB,
    a = .small inlineA →
    b = .small inlineB →
    mulOverflowsWide inlineA inlineB = mulOverflowsPortable inlineA inlineB

/-- The variants differ on inline operands whose product is the least machine integer. -/
theorem uniformOverflow_iff (a b : BigInt) :
    UniformOverflow a b ↔
      ¬(a.isSmall = true ∧ b.isSmall = true ∧ ProductIsLeast a.value b.value) := by
  constructor
  · rintro uniform ⟨aSmall, bSmall, least⟩
    cases a with
    | big exact outside =>
        cases aSmall
    | small a =>
        cases b with
        | big exact outside =>
            cases bSmall
        | small b =>
            have same := uniform a b rfl rfl
            rw [mulOverflowsWide_eq, mulOverflowsPortable_eq, Except.ok.injEq,
              decide_eq_decide] at same
            have product : a.toInt * b.toInt = -9223372036854775808 := least.1
            have fits : FitsInt64 (a.toInt * b.toInt) := by
              rw [product]
              decide
            exact same.mpr (Or.inr least) fits
  · rintro regular inlineA inlineB rfl rfl
    rw [mulOverflowsWide_eq, mulOverflowsPortable_eq, Except.ok.injEq, decide_eq_decide]
    have notLeast : ¬ProductIsLeast inlineA.toInt inlineB.toInt :=
      fun least => regular ⟨rfl, rfl, least⟩
    exact ⟨Or.inl, fun reported => reported.resolve_right notLeast⟩

/-- What `mpz_gcdext` is documented to return. -/
def BezoutCoefficients (gcdext : ℤ → ℤ → ℤ × ℤ × ℤ) : Prop :=
  ∀ a b,
    (gcdext a b).1 = Int.gcd a b ∧
      a * (gcdext a b).2.1 + b * (gcdext a b).2.2 = (gcdext a b).1

/--
All operators are exact with either variant of `mul_overflows`, and no machine operation
overflows.  The variants themselves agree except on products that are `INT64_MIN` of inline
operands that are not: these the portable one reports as an overflow.
-/
theorem exactOperators_and_uniformOverflow_iff
    (gcdext : ℤ → ℤ → ℤ × ℤ × ℤ)
    (documented : BezoutCoefficients gcdext)
    (a b : BigInt) :
    (∀ hasInt128, ExactOperators hasInt128 gcdext a b) ∧
      (UniformOverflow a b ↔
        ¬(a.isSmall = true ∧ b.isSmall = true ∧ ProductIsLeast a.value b.value)) := by
  refine ⟨fun hasInt128 => ?_, uniformOverflow_iff a b⟩
  obtain ⟨gcd_eq, bezout⟩ := documented a.value b.value
  constructor
  · rw [add_eq]
    exact computes_demote _
  · rw [sub_eq]
    exact computes_demote _
  · rw [mul_eq]
    exact computes_demote _
  · rw [neg_eq]
    exact computes_demote _
  · intro nonzero
    rw [div_eq nonzero]
    exact computes_demote _
  · exact div_zero
  · intro nonzero
    rw [rem_eq nonzero]
    exact computes_demote _
  · exact rem_zero
  · exact equals_iff a b
  · exact compare_eq a b
  · exact computes_demote _
  · refine ⟨_, _, _, rfl, ?_, ?_, isSmall_iff _, isSmall_iff _⟩
    · rw [gcd_eq]
      exact computes_demote _
    · rw [value_demote, value_demote, value_demote]
      exact bezout

/-- `-2` and `2 ^ 62`, and the coefficients of the extended Euclidean algorithm. -/
theorem exactOperators_and_uniformOverflow_iff_minus_two :
    (∀ hasInt128,
      ExactOperators hasInt128 (fun a b => (Int.gcd a b, Int.gcdA a b, Int.gcdB a b))
        (ofInt64 (-2)) (ofInt64 4611686018427387904)) ∧
      ¬UniformOverflow (ofInt64 (-2)) (ofInt64 4611686018427387904) := by
  obtain ⟨exactly, uniform⟩ := exactOperators_and_uniformOverflow_iff
    (fun a b => (Int.gcd a b, Int.gcdA a b, Int.gcdB a b))
    (fun a b => ⟨rfl, (Int.gcd_eq_gcd_ab a b).symm⟩)
    (ofInt64 (-2)) (ofInt64 4611686018427387904)
  refine ⟨exactly, ?_⟩
  rw [uniform, not_not]
  decide

/-- The product of `-2` and `2 ^ 62` fits: one variant says so and the other does not. -/
theorem mulOverflows_variants_differ :
    mulOverflowsWide (-2) 4611686018427387904 = .ok false ∧
      mulOverflowsPortable (-2) 4611686018427387904 = .ok true := by
  decide

end BigInt

end NumericaCore
