import Mathlib.Data.Rat.Cast.Lemmas
import Mathlib.Tactic.FieldSimp
import Mathlib.Tactic.NormNum
import Stocas.Atom.Evaluation
import Stocas.Atom.RoundTrip

namespace AtomCore

open SymbolTable (Snapshot Symbol Text)

/-!
# Printing and values

The tree that is parsed back has the value of the printed one, unless a power has
a fraction in it: the caret takes only the denominator of a fraction that is its
base, and only the numerator of a fraction that is its exponent.
-/

/-- Powers with integer exponents are those of the field, others are free. -/
structure Interpretation.IntegerPowers
    {K : Type*}
    [Field K]
    (meaning : Interpretation K) : Prop where
  power_of_ne_zero :
    ∀ {base : K} (exponent : ℤ),
      base ≠ 0 → meaning.power base exponent = some (base ^ exponent)
  power_zero_natural :
    ∀ exponent : ℕ, meaning.power 0 exponent = some (0 ^ exponent)
  power_zero_negative :
    ∀ exponent : ℤ, exponent < 0 → meaning.power 0 exponent = none

namespace AtomTree

/-- The tree is printed with a slash that is not between parentheses. -/
def hasBareSlash : AtomTree → Bool
  | .num value => value.den ≠ 1
  | .pow base exponent => base.fraction?.isSome || exponent.hasBareSlash
  | _ => false

/--
A power whose printed form means the power: no bare slash in the exponent, and a
fraction as base only with an integer exponent that its numerator absorbs.
-/
def CaretSafe : AtomTree → Prop
  | .pow base exponent =>
      exponent.hasBareSlash = false ∧
        ∀ numerator denominator,
          base.fraction? = some (numerator, denominator) →
          ∃ power : ℤ,
            exponent = .num power ∧ (numerator : ℚ) ^ power = numerator
  | _ => True

/-- Without a bare slash nothing is divided. -/
theorem slashParts_of_noSlash
    {tree : AtomTree}
    (noSlash : tree.hasBareSlash = false) :
    tree.slashParts = (tree.reparse, []) := by
  have noDivisors : tree.slashParts.2 = [] := by
    induction tree with
    | num value =>
        have isInteger : value.den = 1 := by
          simpa [hasBareSlash] using noSlash
        simp [slashParts, isInteger]
    | var | add | mul | func =>
        rfl
    | pow base exponent _ exponentHypothesis =>
        simp only [hasBareSlash, Bool.or_eq_false_iff,
          Option.isSome_eq_false_iff, Option.isNone_iff_eq_none] at noSlash
        simpa [slashParts, noSlash.1] using exponentHypothesis noSlash.2
  rw [reparse, divided, noDivisors, List.foldl_nil, ← noDivisors]

variable {K : Type*} [Field K] {meaning : Interpretation K}

open Aggregate (Total total_cons total_nil)

/-- A quotient of defined operands, with a denominator that is not zero. -/
theorem eval_quotient
    (powers : meaning.IntegerPowers)
    {numerator denominator : AtomTree}
    {first second : K}
    (numeratorValue : numerator.eval meaning = some first)
    (denominatorValue : denominator.eval meaning = some second)
    (nonzero : second ≠ 0) :
    (quotient numerator denominator).eval meaning =
      some (first / second) := by
  have inverse :
      HasFactor meaning (.pow denominator (.num (-1))) second⁻¹ := by
    have power := powers.power_of_ne_zero (-1) nonzero
    rw [zpow_neg_one] at power
    refine eval_pow_iff.mpr ⟨second, _, denominatorValue, rfl, ?_⟩
    simpa using power
  have total :
      Total (HasFactor meaning) [numerator, .pow denominator (.num (-1))]
        (first / second) :=
    total_cons.mpr ⟨first, second⁻¹, numeratorValue,
      Aggregate.total_singleton.mpr inverse, (div_eq_mul_inv _ _).symm⟩
  exact eval_mkMul total

/-- An integer as a number has its value. -/
theorem eval_integer
    (value : ℤ) :
    (AtomTree.num value).eval meaning = some (value : K) := by
  rw [eval, Rat.cast_intCast]

/-- A fraction whose numerator absorbs an integer power. -/
theorem zpow_fraction
    [CharZero K]
    {number : ℚ}
    {power : ℤ}
    (absorbs : (number.num : ℚ) ^ power = number.num) :
    (number.num : K) / (number.den : K) ^ power = (number : K) ^ power := by
  have absorbsInField :
      (((number.num : ℚ) ^ power : ℚ) : K) = ((number.num : ℚ) : K) :=
    congrArg _ absorbs
  rw [Rat.cast_zpow, Rat.cast_intCast] at absorbsInField
  rw [Rat.cast_def, div_zpow, absorbsInField]

/-- Children that keep their values, in a list. -/
theorem evalAll_reparse
    {children : List AtomTree}
    (keeps :
      ∀ child ∈ children, ∀ value : K,
        child.eval meaning = some value →
        child.reparse.eval meaning = some value)
    {values : List K}
    (all : evalAll meaning children = some values) :
    evalAll meaning (reparseAll children) = some values := by
  rw [reparseAll_eq_map]
  exact evalAll_map all keeps

/-- What is parsed back has the value of what was printed. -/
theorem eval_reparse
    [CharZero K]
    (powers : meaning.IntegerPowers)
    {tree : AtomTree}
    (safe : tree.Everywhere CaretSafe)
    {value : K}
    (hasValue : tree.eval meaning = some value) :
    tree.reparse.eval meaning = some value := by
  induction tree generalizing value with
  | num number =>
      by_cases isInteger : number.den = 1
      · simpa [reparse, divided, slashParts, isInteger] using hasValue
      · have numerator :
            (AtomTree.num number.num).eval meaning = some (number.num : K) :=
          eval_integer number.num
        have denominator :
            (AtomTree.num number.den).eval meaning = some (number.den : K) :=
          congrArg some (Rat.cast_natCast number.den)
        have nonzero : (number.den : K) ≠ 0 :=
          Nat.cast_ne_zero.mpr number.den_ne_zero
        have isQuotient :=
          eval_quotient powers numerator denominator nonzero
        rw [← Rat.cast_def] at isQuotient
        rw [← hasValue]
        simpa [reparse, divided, slashParts, isInteger, eval] using isQuotient
  | var symbol =>
      exact hasValue
  | add terms inductionHypothesis =>
      simp only [eval, Option.map_eq_some_iff] at hasValue
      obtain ⟨values, all, isSum⟩ := hasValue
      have allAgain :=
        evalAll_reparse
          (fun term member _ =>
            inductionHypothesis term member (safe.child member)) all
      have sum : (AtomTree.add (reparseAll terms)).eval meaning = some value := by
        simp only [eval, allAgain, Option.map_some, isSum]
      exact eval_mkAdd (eval_add_iff.mp sum)
  | mul factors inductionHypothesis =>
      simp only [eval, Option.map_eq_some_iff] at hasValue
      obtain ⟨values, all, isProduct⟩ := hasValue
      have allAgain :=
        evalAll_reparse
          (fun factor member _ =>
            inductionHypothesis factor member (safe.child member)) all
      have product :
          (AtomTree.mul (reparseAll factors)).eval meaning = some value := by
        simp only [eval, allAgain, Option.map_some, isProduct]
      exact eval_mkMul (eval_mul_iff.mp product)
  | pow base exponent baseHypothesis exponentHypothesis =>
      obtain ⟨noSlash, absorbed⟩ := safe.root
      obtain ⟨baseValue, exponentValue, isBase, isExponent, isPower⟩ :=
        eval_pow_iff.mp hasValue
      have exponentParts := slashParts_of_noSlash noSlash
      cases fraction : base.fraction? with
      | none =>
          have baseAgain :=
            baseHypothesis (safe.child (by simp [children])) isBase
          have exponentAgain :=
            exponentHypothesis (safe.child (by simp [children])) isExponent
          have power :=
            eval_pow_iff.mpr
              ⟨baseValue, exponentValue, baseAgain, exponentAgain, isPower⟩
          have parts :
              (AtomTree.pow base exponent).slashParts =
                (.pow base.reparse exponent.reparse, []) := by
            rw [slashParts, fraction, exponentParts]
            rfl
          rw [reparse, parts]
          exact power
      | some parts =>
          cases base with
          | num number =>
              have isFraction : number.den ≠ 1 := by
                intro isInteger
                rw [fraction?, if_pos isInteger] at fraction
                cases fraction
              obtain ⟨power, exponent_eq, absorbs⟩ :=
                absorbed number.num number.den (if_neg isFraction)
              subst exponent
              have nonzero : (number : K) ≠ 0 := by
                intro isZero
                rw [Rat.cast_eq_zero] at isZero
                rw [isZero] at isFraction
                exact isFraction rfl
              have denominatorNonzero : (number.den : K) ≠ 0 :=
                Nat.cast_ne_zero.mpr number.den_ne_zero
              have numerator :
                  (AtomTree.num number.num).eval meaning =
                    some (number.num : K) :=
                eval_integer number.num
              have denominator :
                  (AtomTree.pow (.num number.den) (.num power)).eval meaning =
                    some ((number.den : K) ^ power) := by
                refine eval_pow_iff.mpr ⟨number.den, power, ?_,
                  eval_integer power,
                  powers.power_of_ne_zero power denominatorNonzero⟩
                exact congrArg some (Rat.cast_natCast number.den)
              have isQuotient :=
                eval_quotient powers numerator denominator
                  (zpow_ne_zero power denominatorNonzero)
              rw [zpow_fraction absorbs] at isQuotient
              have parts :
                  (AtomTree.pow (.num number) (.num power)).slashParts =
                    (.num number.num, [.pow (.num number.den) (.num power)]) := by
                simp [slashParts, fraction?, isFraction]
              rw [reparse, parts]
              change (quotient _ _).eval meaning = some value
              rw [isQuotient, ← powers.power_of_ne_zero power nonzero, ← isPower]
              cases isBase
              rw [eval_integer] at isExponent
              cases isExponent
              rfl
          | var | add | mul | pow | func =>
              cases fraction
  | func head arguments inductionHypothesis =>
      simp only [eval, Option.bind_eq_some_iff] at hasValue
      obtain ⟨values, all, applied⟩ := hasValue
      have allAgain :=
        evalAll_reparse
          (fun argument member _ =>
            inductionHypothesis argument member (safe.child member)) all
      change (AtomTree.func head (reparseAll arguments)).eval meaning = _
      simp only [eval, allAgain, Option.bind_some, applied]

end AtomTree

section PrintedValue

variable [StringHash]

/--
Parsing the printed atom succeeds, and gives an atom with the same value wherever
the printed one is defined.
-/
def PrintingKeepsValue
    (context : ParserContext)
    (store : AtomStore)
    (table : Snapshot)
    (index : Nat) : Prop :=
  ∃ slot state,
    parse context (store.print table index) store table = .ok (slot, state) ∧
      ∀ (K : Type) [Field K] [CharZero K] (meaning : Interpretation K),
        meaning.IntegerPowers →
        ∀ value,
          (store.tree index).eval meaning = some value →
          (state.store.tree slot).eval meaning = some value

/-- Printing keeps the value of an atom whose powers are safe. -/
theorem printing_keeps_value
    {context : ParserContext}
    {store : AtomStore}
    (built : store.Reachable)
    {table : Snapshot}
    (registered : table.Reachable)
    {index : Nat}
    (printable :
      (store.tree index).Everywhere
        (AtomTree.Printable table context.namespaceName))
    (safe : (store.tree index).Everywhere AtomTree.CaretSafe) :
    PrintingKeepsValue context store table index := by
  obtain ⟨⟨slot, state⟩, parsed, delivered, -⟩ :=
    print_parses registered.consistent built.invariant printable
  refine ⟨slot, state, parsed, ?_⟩
  intro K _ _ meaning powers value hasValue
  have tree_eq : state.store.tree slot = (store.tree index).reparse :=
    delivered.tree_eq
  rw [tree_eq]
  exact AtomTree.eval_reparse powers safe hasValue

end PrintedValue

/-- Rationals with integer powers only. -/
def integerPowers : Interpretation ℚ where
  variableValue := fun _ => 0
  function := fun _ _ => none
  power := fun base exponent =>
    if exponent.den = 1 ∧ (base ≠ 0 ∨ 0 ≤ exponent.num) then
      some (base ^ exponent.num)
    else
      none

theorem integerPowers_integerPowers : integerPowers.IntegerPowers where
  power_of_ne_zero := by
    intro base exponent nonzero
    simp [integerPowers, nonzero]
  power_zero_natural := by
    intro exponent
    simp [integerPowers]
  power_zero_negative := by
    intro exponent negative
    simp [integerPowers, not_le.mpr negative]

/-- A power of two numbers has no nodes but itself and these. -/
private theorem everywhere_power
    {condition : AtomTree → Prop}
    (leaf : ∀ value : ℚ, condition (.num value))
    {base exponent : ℚ}
    (root : condition (.pow (.num base) (.num exponent))) :
    (AtomTree.pow (.num base) (.num exponent)).Everywhere condition := by
  have leafHolds :
      ∀ value : ℚ, (AtomTree.num value).Everywhere condition :=
    fun value => .node (leaf value) (by simp [AtomTree.children])
  exact .node root (by simp [AtomTree.children, leafHolds])

/-- An arena with the power of two numbers. -/
def powerStore (base exponent : ℚ) : AtomStore :=
  Transition.run (@AtomStore.BuilderCall.step ⟨fun _ => 0⟩) AtomStore.empty
    [.num base, .num exponent, .pow 0 1]

/-- `(1/3)^2` is printed as `1/3^2`, which has the same value. -/
theorem printing_keeps_unit_fraction :
    @PrintingKeepsValue ⟨fun _ => 0⟩ ⟨"test".toList, ⟨[], 0⟩⟩
      (powerStore (1 / 3) 2) .empty 2 := by
  have tree_eq :
      (powerStore (1 / 3) 2).tree 2 = .pow (.num (1 / 3)) (.num 2) := by
    decide +kernel
  have built : @AtomStore.Reachable ⟨fun _ => 0⟩ (powerStore (1 / 3) 2) := by
    refine ⟨_, ?_, rfl⟩
    simp only [Transition.everyStep_cons]
    exact ⟨by decide, by decide, by decide +kernel, Transition.everyStep_nil⟩
  refine @printing_keeps_value ⟨fun _ => 0⟩ _ _ built _ .empty 2 ?_ ?_
  · rw [tree_eq]
    exact everywhere_power (fun _ => trivial) trivial
  · rw [tree_eq]
    refine everywhere_power (fun _ => trivial) ⟨by decide +kernel, ?_⟩
    intro numerator denominator fraction
    have isFraction :
        (AtomTree.num (1 / 3)).fraction? = some (1, 3) := by
      decide +kernel
    rw [isFraction] at fraction
    cases fraction
    exact ⟨2, rfl, by norm_num⟩

/-- `(2/3)^2` is printed as `2/3^2`, which is parsed as `2/9`. -/
theorem printed_fraction_power :
    @AtomStore.Reachable ⟨fun _ => 0⟩ (powerStore (2 / 3) 2) ∧
      ((powerStore (2 / 3) 2).tree 2).Everywhere
        (AtomTree.Printable .empty "test".toList) ∧
      ¬@PrintingKeepsValue ⟨fun _ => 0⟩ ⟨"test".toList, ⟨[], 0⟩⟩
        (powerStore (2 / 3) 2) .empty 2 := by
  have built : @AtomStore.Reachable ⟨fun _ => 0⟩ (powerStore (2 / 3) 2) := by
    refine ⟨_, ?_, rfl⟩
    simp only [Transition.everyStep_cons]
    exact ⟨by decide, by decide, by decide +kernel, Transition.everyStep_nil⟩
  have tree_eq :
      (powerStore (2 / 3) 2).tree 2 = .pow (.num (2 / 3)) (.num 2) := by
    decide +kernel
  have printable :
      ((powerStore (2 / 3) 2).tree 2).Everywhere
        (AtomTree.Printable .empty "test".toList) := by
    rw [tree_eq]
    exact everywhere_power (fun _ => trivial) trivial
  refine ⟨built, printable, ?_⟩
  intro keeps
  obtain ⟨slot, state, parsed, same⟩ := keeps
  obtain ⟨result, parsedAgain, delivered, -⟩ :=
    @print_parses ⟨fun _ => 0⟩ ⟨"test".toList, ⟨[], 0⟩⟩ .empty
      Snapshot.Reachable.empty.consistent _
      (@AtomStore.Reachable.invariant ⟨fun _ => 0⟩ _ built) 2 printable
  rw [parsedAgain] at parsed
  cases parsed
  have readAs :
      state.store.tree slot =
        .mul [.num 2, .pow (.pow (.num 3) (.num 2)) (.num (-1))] := by
    refine (@AtomStore.Built.tree_eq ⟨fun _ => 0⟩ _ _ _ delivered).trans ?_
    rw [tree_eq]
    decide +kernel
  have value := same ℚ integerPowers integerPowers_integerPowers (4 / 9)
  rw [tree_eq, readAs] at value
  norm_num [AtomTree.eval, AtomTree.evalAll, integerPowers] at value

end AtomCore
