import Stocas.Algebra.Rings
import Stocas.Algebra.RowCanonical
import Stocas.Library.Realization
import Stocas.Numerica.RationalNumber

namespace AlgebraCore

open NumericaCore (FiniteField Machine)
open NumericaCore.Rational (ofRat reduced_ofRat value_ofRat)
open Outcome (ok_bind)
open Realization
open RowEchelon

/-!
# Row reduction over the field structs

`row_reduce` is a template over a struct with the operations of a field, which may throw,
and works on its matrix in place.  Over `RationalField` and over `FiniteFieldRing` with a
prime modulus it throws nothing and computes the reduced row echelon form.
-/

/-- The concept `Field`: a ring with the inverses of its nonzero elements. -/
structure FieldStruct (Element : Type) where
  zero : Element
  one : Element
  add : Element → Element → Machine Element
  sub : Element → Element → Machine Element
  mul : Element → Element → Machine Element
  neg : Element → Machine Element
  inv : Element → Machine Element
  /-- `operator==` of the elements. -/
  equals : Element → Element → Bool

/-- `RationalField`. -/
def rationalField (hasInt128 : Bool) : FieldStruct NumericaCore.Rational where
  zero := NumericaCore.Rational.ofInt64 0
  one := NumericaCore.Rational.ofInt64 1
  add := NumericaCore.Rational.add hasInt128
  sub := NumericaCore.Rational.sub hasInt128
  mul := NumericaCore.Rational.mul hasInt128
  neg := NumericaCore.Rational.neg
  inv := NumericaCore.Rational.inv
  equals := NumericaCore.Rational.equals

/-- `FiniteFieldRing`, as a field. -/
def finiteField
    {width : ℕ}
    (modulus : BitVec width)
    [Fact (1 < modulus.toNat)] :
    FieldStruct (FiniteField modulus) where
  zero := FiniteField.ofValue 0
  one := FiniteField.ofValue 1
  add a b := .ok (a + b)
  sub a b := .ok (a - b)
  mul a b := .ok (a * b)
  neg a := .ok (-a)
  inv := finiteFieldInv modulus
  equals a b := a == b

namespace FieldStruct

section Template

variable {Element : Type} (field : FieldStruct Element) {rows cols : ℕ}

/-- The loop over `selected`. -/
def selectRow
    (matrix : RowMatrix Element rows cols)
    (col : Fin cols)
    (pivotRow : ℕ) :
    Option (Fin rows) :=
  ((List.finRange rows).drop pivotRow).find? fun r =>
    !field.equals (matrix r col) field.zero

/-- A loop over the columns that assigns the entries of one row. -/
def assignRow
    (row : Fin rows)
    (entryAt : RowMatrix Element rows cols → Fin cols → Machine Element)
    (matrix : RowMatrix Element rows cols) :
    Machine (RowMatrix Element rows cols) :=
  (List.finRange cols).foldlM
    (fun current c => do
      let entry ← entryAt current c
      .ok (Function.update current row (Function.update (current row) c entry)))
    matrix

/-- The loop that multiplies the pivot row by the inverse of its pivot. -/
def scaleRow
    (matrix : RowMatrix Element rows cols)
    (pivot : Fin rows)
    (invPivot : Element) :
    Machine (RowMatrix Element rows cols) :=
  assignRow pivot (fun current c => field.mul (current pivot c) invPivot) matrix

/-- Clear the column in one row, unless this is the pivot row or clear already. -/
def eliminateRow
    (pivot : Fin rows)
    (col : Fin cols)
    (matrix : RowMatrix Element rows cols)
    (r : Fin rows) :
    Machine (RowMatrix Element rows cols) :=
  if r = pivot ∨ field.equals (matrix r col) field.zero = true then
    .ok matrix
  else
    let factor := matrix r col
    assignRow r
      (fun current c => do
        let product ← field.mul factor (current pivot c)
        field.sub (current r c) product)
      matrix

/-- Bring the selected row up, scale it and clear the column in the other rows. -/
def clearColumn
    (matrix : RowMatrix Element rows cols)
    (selected pivot : Fin rows)
    (col : Fin cols) :
    Machine (RowMatrix Element rows cols) := do
  let swapped := swapRows matrix selected pivot
  let invPivot ← field.inv (swapped pivot col)
  let scaled ← field.scaleRow swapped pivot invPivot
  (List.finRange rows).foldlM (field.eliminateRow pivot col) scaled

/-- The body of the loop over the columns. -/
def reduceColumn
    (reduction : Reduction Element rows cols)
    (col : Fin cols) :
    Machine (Reduction Element rows cols) :=
  if inside : reduction.pivotRow < rows then
    match field.selectRow reduction.matrix col reduction.pivotRow with
    | none => .ok reduction
    | some selected => do
        let cleared ←
          field.clearColumn reduction.matrix selected ⟨reduction.pivotRow, inside⟩ col
        .ok
          { matrix := cleared
            pivotRow := reduction.pivotRow + 1 }
  else
    .ok reduction

/-- `row_reduce`. -/
def rowReduce (matrix : RowMatrix Element rows cols) :
    Machine (RowMatrix Element rows cols) :=
  if rows = 0 then
    .ok matrix
  else do
    let reduction ←
      (List.finRange cols).foldlM field.reduceColumn { matrix := matrix, pivotRow := 0 }
    .ok reduction.matrix

end Template

/-- The operations on valid elements are those of a field. -/
structure Represents
    {Element K : Type}
    [Field K]
    (field : FieldStruct Element)
    (valid : Element → Prop)
    (value : Element → K) : Prop where
  equals_zero : ∀ a, valid a → (field.equals a field.zero = true ↔ value a = 0)
  sub : ∀ a b, valid a → valid b →
    ∃ difference,
      field.sub a b = .ok difference ∧ valid difference ∧ value difference = value a - value b
  mul : ∀ a b, valid a → valid b →
    ∃ product,
      field.mul a b = .ok product ∧ valid product ∧ value product = value a * value b
  inv : ∀ a, valid a → value a ≠ 0 →
    ∃ inverted,
      field.inv a = .ok inverted ∧ valid inverted ∧ value inverted = (value a)⁻¹

section Refinement

variable {Element K : Type} [Field K] {field : FieldStruct Element} {valid : Element → Prop}
  {value : Element → K} {rows cols : ℕ}

/-- Every entry is valid and has the value of the abstract entry. -/
def Holds
    (valid : Element → Prop)
    (value : Element → K)
    (concrete : RowMatrix Element rows cols)
    (abstract : RowMatrix K rows cols) : Prop :=
  ∀ r c, valid (concrete r c) ∧ value (concrete r c) = abstract r c

omit [Field K] in
/-- Assigning a row replaces it and keeps the others. -/
theorem assignRow_spec
    {row : Fin rows}
    {entryAt : RowMatrix Element rows cols → Fin cols → Machine Element}
    {concrete : RowMatrix Element rows cols}
    {abstract : RowMatrix K rows cols}
    {target : Fin cols → K}
    (holds : Holds valid value concrete abstract)
    (computes :
      ∀ current : RowMatrix Element rows cols,
        (∀ other, other ≠ row → current other = concrete other) →
        ∀ c, current row c = concrete row c →
        ∃ entry, entryAt current c = .ok entry ∧ valid entry ∧ value entry = target c) :
    ∃ result,
      assignRow row entryAt concrete = .ok result ∧
        Holds valid value result (Function.update abstract row target) := by
  -- After some columns the row has its targets there and the old entries elsewhere.
  have loop : ∀ columns : List (Fin cols), columns.Nodup →
      ∀ current : RowMatrix Element rows cols,
        (∀ other, other ≠ row → current other = concrete other) →
        (∀ c ∈ columns, current row c = concrete row c) →
        (∀ c, c ∉ columns → valid (current row c) ∧ value (current row c) = target c) →
        ∃ result,
          columns.foldlM
              (fun current c => do
                let entry ← entryAt current c
                (.ok (Function.update current row
                  (Function.update (current row) c entry)) : Machine _))
              current = .ok result ∧
            (∀ other, other ≠ row → result other = concrete other) ∧
            ∀ c, valid (result row c) ∧ value (result row c) = target c := by
    intro columns
    induction columns with
    | nil =>
        intro _ current others _ done
        exact ⟨current, rfl, others, fun c => done c List.not_mem_nil⟩
    | cons column columns inductionHypothesis =>
        intro once current others untouched done
        obtain ⟨fresh, laterOnce⟩ := List.nodup_cons.mp once
        obtain ⟨entry, computed, isValid, isTarget⟩ :=
          computes current others column (untouched column List.mem_cons_self)
        rw [List.foldlM_cons, computed, ok_bind, ok_bind]
        apply inductionHypothesis laterOnce
        · intro other distinct
          rw [Function.update_of_ne distinct, others other distinct]
        · intro c member
          have distinct : c ≠ column := fun same => fresh (same ▸ member)
          rw [Function.update_self, Function.update_of_ne distinct,
            untouched c (List.mem_cons_of_mem _ member)]
        · intro c notLater
          rw [Function.update_self]
          by_cases same : c = column
          · rw [same, Function.update_self]
            exact ⟨isValid, isTarget⟩
          · rw [Function.update_of_ne same]
            exact done c fun member => (List.mem_cons.mp member).elim same notLater
  obtain ⟨result, looped, others, targets⟩ :=
    loop (List.finRange cols) (List.nodup_finRange cols) concrete (fun _ _ => rfl)
      (fun _ _ => rfl) (fun c absent => absurd (List.mem_finRange c) absent)
  refine ⟨result, looped, ?_⟩
  intro r c
  by_cases same : r = row
  · rw [same, Function.update_self]
    exact targets c
  · rw [others r same, Function.update_of_ne same]
    exact holds r c

/-- The selected row is the same. -/
theorem selectRow_eq
    [DecidableEq K]
    (represents : Represents field valid value)
    {concrete : RowMatrix Element rows cols}
    {abstract : RowMatrix K rows cols}
    (holds : Holds valid value concrete abstract)
    (col : Fin cols)
    (pivotRow : ℕ) :
    field.selectRow concrete col pivotRow = AlgebraCore.selectRow abstract col pivotRow := by
  rw [selectRow, AlgebraCore.selectRow]
  congr 1
  funext r
  obtain ⟨isValid, isValue⟩ := holds r col
  have tested := represents.equals_zero (concrete r col) isValid
  rw [isValue] at tested
  by_cases isZero : abstract r col = 0
  · simp [isZero, tested.mpr isZero]
  · have notEqual : field.equals (concrete r col) field.zero = false :=
      Bool.eq_false_iff.mpr fun equal => isZero (tested.mp equal)
    simp [isZero, notEqual]

theorem scaleRow_spec
    (represents : Represents field valid value)
    {concrete : RowMatrix Element rows cols}
    {abstract : RowMatrix K rows cols}
    (holds : Holds valid value concrete abstract)
    (pivot : Fin rows)
    {invPivot : Element}
    (invValid : valid invPivot) :
    ∃ result,
      field.scaleRow concrete pivot invPivot = .ok result ∧
        Holds valid value result (AlgebraCore.scaleRow abstract pivot (value invPivot)) := by
  apply assignRow_spec holds
  intro current _ c untouched
  obtain ⟨isValid, isValue⟩ := holds pivot c
  obtain ⟨product, returned, productValid, productValue⟩ :=
    represents.mul (concrete pivot c) invPivot isValid invValid
  refine ⟨product, ?_, productValid, ?_⟩
  · rw [untouched, returned]
  · rw [productValue, isValue]

theorem eliminateRow_spec
    [DecidableEq K]
    (represents : Represents field valid value)
    {concrete : RowMatrix Element rows cols}
    {abstract : RowMatrix K rows cols}
    (holds : Holds valid value concrete abstract)
    (pivot : Fin rows)
    (col : Fin cols)
    (r : Fin rows) :
    ∃ result,
      field.eliminateRow pivot col concrete r = .ok result ∧
        Holds valid value result (AlgebraCore.eliminateRow pivot col abstract r) := by
  obtain ⟨factorValid, factorValue⟩ := holds r col
  have tested :
      (r = pivot ∨ field.equals (concrete r col) field.zero = true) ↔
        (r = pivot ∨ abstract r col = 0) := by
    rw [represents.equals_zero (concrete r col) factorValid, factorValue]
  rw [eliminateRow, AlgebraCore.eliminateRow]
  by_cases skipped : r = pivot ∨ abstract r col = 0
  · rw [if_pos (tested.mpr skipped), if_pos skipped]
    exact ⟨concrete, rfl, holds⟩
  · rw [if_neg (fun skips => skipped (tested.mp skips)), if_neg skipped]
    have distinct : pivot ≠ r := fun same => skipped (Or.inl same.symm)
    apply assignRow_spec holds
    intro current others c untouched
    obtain ⟨pivotValid, pivotValue⟩ := holds pivot c
    obtain ⟨entryValid, entryValue⟩ := holds r c
    obtain ⟨product, multiplied, productValid, productValue⟩ :=
      represents.mul (concrete r col) (concrete pivot c) factorValid pivotValid
    obtain ⟨difference, subtracted, differenceValid, differenceValue⟩ :=
      represents.sub (concrete r c) product entryValid productValid
    refine ⟨difference, ?_, differenceValid, ?_⟩
    · rw [others pivot distinct, multiplied, ok_bind, untouched, subtracted]
    · rw [differenceValue, productValue, entryValue, factorValue, pivotValue]

omit [Field K] in
theorem holds_swapRows
    {concrete : RowMatrix Element rows cols}
    {abstract : RowMatrix K rows cols}
    (holds : Holds valid value concrete abstract)
    (first second : Fin rows) :
    Holds valid value (swapRows concrete first second) (swapRows abstract first second) :=
  fun r c => holds (Equiv.swap first second r) c

theorem clearColumn_spec
    [DecidableEq K]
    (represents : Represents field valid value)
    {concrete : RowMatrix Element rows cols}
    {abstract : RowMatrix K rows cols}
    (holds : Holds valid value concrete abstract)
    {selected pivot : Fin rows}
    {col : Fin cols}
    (nonzero : abstract selected col ≠ 0) :
    ∃ result,
      field.clearColumn concrete selected pivot col = .ok result ∧
        Holds valid value result (AlgebraCore.clearColumn abstract selected pivot col) := by
  have swapped := holds_swapRows holds selected pivot
  obtain ⟨pivotValid, pivotValue⟩ := swapped pivot col
  have pivotNonzero : value (swapRows concrete selected pivot pivot col) ≠ 0 := by
    rw [pivotValue]
    simpa [swapRows] using nonzero
  obtain ⟨inverted, invReturned, invValid, invValue⟩ :=
    represents.inv _ pivotValid pivotNonzero
  obtain ⟨scaled, scaleReturned, scaledHolds⟩ :=
    scaleRow_spec represents swapped pivot invValid
  rw [invValue, pivotValue] at scaledHolds
  have eachRow : ∀ r ∈ List.finRange rows, ∀ current exact,
      Holds valid value current exact →
      ∃ next,
        field.eliminateRow pivot col current r = .ok next ∧
          Holds valid value next (AlgebraCore.eliminateRow pivot col exact r) :=
    fun r _ _ _ stepHolds => eliminateRow_spec represents stepHolds pivot col r
  obtain ⟨result, looped, resultHolds⟩ := exists_foldlM_of_step eachRow scaledHolds
  refine ⟨result, ?_, resultHolds⟩
  rw [clearColumn, invReturned, ok_bind, scaleReturned, ok_bind]
  exact looped

/-- The local variables belong together. -/
def HoldsReduction
    (valid : Element → Prop)
    (value : Element → K)
    (concrete : Reduction Element rows cols)
    (abstract : Reduction K rows cols) : Prop :=
  Holds valid value concrete.matrix abstract.matrix ∧ concrete.pivotRow = abstract.pivotRow

theorem reduceColumn_spec
    [DecidableEq K]
    (represents : Represents field valid value)
    {concrete : Reduction Element rows cols}
    {abstract : Reduction K rows cols}
    (holds : HoldsReduction valid value concrete abstract)
    (col : Fin cols) :
    ∃ next,
      field.reduceColumn concrete col = .ok next ∧
        HoldsReduction valid value next (AlgebraCore.reduceColumn abstract col) := by
  rcases concrete with ⟨concrete, pivotRow⟩
  rcases abstract with ⟨abstract, abstractPivot⟩
  obtain ⟨matrices, samePivot⟩ := holds
  simp only at matrices samePivot
  subst samePivot
  rw [reduceColumn, AlgebraCore.reduceColumn]
  by_cases inside : pivotRow < rows
  · rw [dif_pos inside, dif_pos inside]
    simp only [selectRow_eq represents matrices col pivotRow]
    cases found : AlgebraCore.selectRow abstract col pivotRow with
    | none =>
        exact ⟨⟨concrete, pivotRow⟩, rfl, matrices, rfl⟩
    | some selected =>
        have cleared :
            ∃ result,
              field.clearColumn concrete selected ⟨pivotRow, inside⟩ col = .ok result ∧
                Holds valid value result
                  (AlgebraCore.clearColumn abstract selected ⟨pivotRow, inside⟩ col) :=
          clearColumn_spec represents matrices (selectRow_eq_some found).2
        obtain ⟨result, returned, resultHolds⟩ := cleared
        refine ⟨⟨result, pivotRow + 1⟩, ?_, resultHolds, rfl⟩
        simp only [returned, ok_bind]
  · rw [dif_neg inside, dif_neg inside]
    exact ⟨⟨concrete, pivotRow⟩, rfl, matrices, rfl⟩

/-- Row reduction over a field struct throws nothing and reduces the values. -/
theorem rowReduce_spec
    [DecidableEq K]
    (represents : Represents field valid value)
    {concrete : RowMatrix Element rows cols}
    {abstract : RowMatrix K rows cols}
    (holds : Holds valid value concrete abstract) :
    ∃ result,
      field.rowReduce concrete = .ok result ∧
        Holds valid value result (AlgebraCore.rowReduce abstract) := by
  rw [rowReduce, AlgebraCore.rowReduce]
  by_cases empty : rows = 0
  · rw [if_pos empty, if_pos empty]
    exact ⟨concrete, rfl, holds⟩
  · rw [if_neg empty, if_neg empty]
    have start :
        HoldsReduction valid value
          ({ matrix := concrete, pivotRow := 0 } : Reduction Element rows cols)
          { matrix := abstract, pivotRow := 0 } :=
      ⟨holds, rfl⟩
    have eachColumn : ∀ col ∈ List.finRange cols,
        ∀ (current : Reduction Element rows cols) (exact : Reduction K rows cols),
        HoldsReduction valid value current exact →
        ∃ next,
          field.reduceColumn current col = .ok next ∧
            HoldsReduction valid value next (AlgebraCore.reduceColumn exact col) :=
      fun col _ _ _ stepHolds => reduceColumn_spec represents stepHolds col
    obtain ⟨reduction, looped, reductionHolds⟩ := exists_foldlM_of_step eachColumn start
    refine ⟨reduction.matrix, ?_, reductionHolds.1⟩
    rw [looped, ok_bind]

end Refinement

/-- The rational numbers in lowest terms. -/
theorem represents_rationalField (hasInt128 : Bool) :
    Represents (rationalField hasInt128) NumericaCore.Rational.Reduced
      NumericaCore.Rational.value where
  equals_zero a reduced := by
    have zeroReduced : (NumericaCore.Rational.ofInt64 0).Reduced :=
      NumericaCore.Rational.reduced_integer _
    have zeroValue : (NumericaCore.Rational.ofInt64 0).value = 0 := by
      decide +kernel
    have equals := NumericaCore.Rational.equals_iff reduced zeroReduced
    rw [zeroValue] at equals
    exact equals
  sub a b aReduced bReduced :=
    ⟨_, NumericaCore.Rational.sub_eq aReduced bReduced, reduced_ofRat _, value_ofRat _⟩
  mul a b aReduced bReduced :=
    ⟨_, NumericaCore.Rational.mul_eq aReduced bReduced, reduced_ofRat _, value_ofRat _⟩
  inv a reduced nonzero :=
    ⟨_, NumericaCore.Rational.inv_eq reduced nonzero, reduced_ofRat _, value_ofRat _⟩

/-- A finite field with a prime modulus. -/
theorem represents_finiteField
    {width : ℕ}
    (modulus : BitVec width)
    [Fact (1 < modulus.toNat)]
    [isPrime : Fact modulus.toNat.Prime] :
    Represents (finiteField modulus) (fun _ => True) (id : FiniteField modulus → _) where
  equals_zero a _ := beq_iff_eq
  sub a b _ _ := ⟨a - b, rfl, trivial, rfl⟩
  mul a b _ _ := ⟨a * b, rfl, trivial, rfl⟩
  inv a _ nonzero := by
    have wordNonzero : a.value ≠ 0 :=
      fun isZero => nonzero (FiniteField.value_eq_zero_iff.mp isZero)
    obtain ⟨inverted, returned, inverts⟩ := FiniteField.mul_inverse isPrime.out wordNonzero
    refine ⟨inverted, ?_, trivial, eq_inv_of_mul_eq_one_right inverts⟩
    simp only [finiteField, finiteFieldInv, returned]

/--
Over the rational numbers and over every prime field, `row_reduce` throws nothing and leaves
the one reduced row echelon form with the row space of the matrix.
-/
theorem rowReduce_over_fields :
    (∀ (hasInt128 : Bool) (rows cols : ℕ)
      (matrix : RowMatrix NumericaCore.Rational rows cols),
      (∀ r c, (matrix r c).Reduced) →
      ∃ result,
        (rationalField hasInt128).rowReduce matrix = .ok result ∧
          (∀ r c, (result r c).Reduced) ∧
          ReducedRowEchelon (fun r c => (result r c).value) ∧
          rowSpace ℚ (fun r c => (result r c).value) =
            rowSpace ℚ (fun r c => (matrix r c).value)) ∧
    (∀ (width : ℕ) (modulus : BitVec width) [Fact (1 < modulus.toNat)]
      [Fact modulus.toNat.Prime] (rows cols : ℕ)
      (matrix : RowMatrix (FiniteField modulus) rows cols),
      ∃ result,
        (finiteField modulus).rowReduce matrix = .ok result ∧
          ReducedRowEchelon result ∧
          rowSpace (FiniteField modulus) result = rowSpace (FiniteField modulus) matrix) := by
  constructor
  · intro hasInt128 rows cols matrix allReduced
    have start :
        Holds NumericaCore.Rational.Reduced NumericaCore.Rational.value matrix
          (fun r c => (matrix r c).value) :=
      fun r c => ⟨allReduced r c, rfl⟩
    obtain ⟨result, returned, holds⟩ :=
      rowReduce_spec (represents_rationalField hasInt128) start
    have values :
        (fun r c => (result r c).value) =
          AlgebraCore.rowReduce fun r c => (matrix r c).value := by
      funext r c
      exact (holds r c).2
    refine ⟨result, returned, fun r c => (holds r c).1, ?_⟩
    rw [values]
    exact rowReduce_reducedRowEchelon _
  · intro width modulus _ _ rows cols matrix
    have start :
        Holds (fun _ => True) (id : FiniteField modulus → FiniteField modulus) matrix matrix :=
      fun r c => ⟨trivial, rfl⟩
    obtain ⟨result, returned, holds⟩ :=
      rowReduce_spec (represents_finiteField modulus) start
    have values : result = AlgebraCore.rowReduce matrix := by
      funext r c
      exact (holds r c).2
    refine ⟨result, returned, ?_⟩
    rw [values]
    exact rowReduce_reducedRowEchelon matrix

/-- A matrix of two rows, of which the second is lowered by the first. -/
def twoRows : RowMatrix ℚ 2 3 :=
  ![![2, 1, 3], ![4, 1, 5]]

/-- The two rows are reduced over the rational numbers. -/
theorem rowReduce_over_fields_twoRows :
    ∃ result,
      (rationalField true).rowReduce
          (fun r c => NumericaCore.Rational.ofRat (twoRows r c)) = .ok result ∧
        ReducedRowEchelon (fun r c => (result r c).value) ∧
        rowSpace ℚ (fun r c => (result r c).value) = rowSpace ℚ twoRows := by
  obtain ⟨result, returned, _, reduced, sameSpace⟩ :=
    rowReduce_over_fields.1 true 2 3
      (fun r c => NumericaCore.Rational.ofRat (twoRows r c))
      fun _ _ => reduced_ofRat _
  refine ⟨result, returned, reduced, sameSpace.trans ?_⟩
  simp only [NumericaCore.Rational.value_ofRat]

end FieldStruct

end AlgebraCore
