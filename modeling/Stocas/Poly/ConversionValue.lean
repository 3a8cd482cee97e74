import Mathlib.Algebra.MvPolynomial.Funext
import Stocas.Poly.AtomConversion
import Stocas.Poly.VariableValues

namespace PolyCore

open AtomCore (AtomTree)
open NumericaCore (bigIntOfString_toDigits bigIntToString)
open Outcome (ok_bind)
open SymbolTable (Symbol)
open WrappedExponents (Below wrap)

/-!
# What the conversion returns

The first problem from left to right decides what is thrown.  Without a problem the
result is the polynomial of the expression with narrowed exponents, in the ring of
exponents modulo 2^32, which need not be the polynomial that the expression denotes.
-/

variable {numVars : ℕ} {vars : Fin numVars → Symbol}

/-- Why a node is not converted. -/
inductive ConversionProblem where
  /-- it is not part of a polynomial in the listed variables -/
  | notPolynomial
  /-- its exponent has more than 64 bits -/
  | exponentTooLong
deriving DecidableEq

/-- The problem of an exponent. -/
def exponentProblems : AtomTree → List ConversionProblem
  | .num value =>
      if value.den = 1 ∧ 0 ≤ value.num then
        if value.num < 2 ^ 64 then
          []
        else
          [.exponentTooLong]
      else
        [.notPolynomial]
  | _ => [.notPolynomial]

variable (vars) in
mutual

/-- The problems of an expression in the order in which they are met. -/
def problems : AtomTree → List ConversionProblem
  | .num _ => []
  | .var symbol =>
      if ∃ index, vars index = symbol then
        []
      else
        [.notPolynomial]
  | .add terms => problemsOfAll terms
  | .mul factors => problemsOfAll factors
  | .pow base exponent => problems base ++ exponentProblems exponent
  | .func _ _ => [.notPolynomial]

/-- The problems of some expressions, one after the other. -/
def problemsOfAll : List AtomTree → List ConversionProblem
  | [] => []
  | tree :: rest => problems tree ++ problemsOfAll rest

end

/-- What a computation with these problems ends with. -/
def EndsWith
    {α : Type}
    (holds : α → Prop) :
    List ConversionProblem → Except ConversionError α → Prop
  | [], outcome => ∃ result, outcome = .ok result ∧ holds result
  | .notPolynomial :: _, outcome =>
      ∃ message, outcome = .error (.invalidArgument message)
  | .exponentTooLong :: _, outcome =>
      ∃ message, outcome = .error (.outOfRange message)

/-- Problems of a first part come before those of what follows. -/
theorem EndsWith.bind
    {α β : Type}
    {holds : α → Prop}
    {thenHolds : β → Prop}
    {first second : List ConversionProblem}
    {outcome : Except ConversionError α}
    {next : α → Except ConversionError β}
    (firstEnds : EndsWith holds first outcome)
    (nextEnds : ∀ result, holds result → EndsWith thenHolds second (next result)) :
    EndsWith thenHolds (first ++ second) (outcome >>= next) := by
  cases first with
  | nil =>
      obtain ⟨result, rfl, isResult⟩ := firstEnds
      exact nextEnds result isResult
  | cons problem rest =>
      cases problem with
      | notPolynomial =>
          obtain ⟨message, rfl⟩ := firstEnds
          exact ⟨message, rfl⟩
      | exponentTooLong =>
          obtain ⟨message, rfl⟩ := firstEnds
          exact ⟨message, rfl⟩

/-- A last part without problems keeps the problems of the first. -/
theorem EndsWith.map
    {α β : Type}
    {holds : α → Prop}
    {thenHolds : β → Prop}
    {problems : List ConversionProblem}
    {outcome : Except ConversionError α}
    {next : α → Except ConversionError β}
    (ends : EndsWith holds problems outcome)
    (returns :
      ∀ result, holds result → ∃ last, next result = .ok last ∧ thenHolds last) :
    EndsWith thenHolds problems (outcome >>= next) := by
  have appended : EndsWith thenHolds (problems ++ []) (outcome >>= next) :=
    ends.bind returns
  rwa [List.append_nil] at appended

/-- A symbol is found exactly when it is listed. -/
theorem findVariable_ends (symbol : Symbol) :
    EndsWith
      (fun index => vars index = symbol ∧ findVariable vars symbol = .ok index)
      (problems vars (.var symbol)) (findVariable vars symbol) := by
  rw [problems, findVariable]
  cases found : (List.finRange numVars).find? (fun index => vars index = symbol) with
  | none =>
      have unlisted : ¬ ∃ index, vars index = symbol := by
        intro listed
        obtain ⟨index, isSymbol⟩ := listed
        have notFound := List.find?_eq_none.mp found index (List.mem_finRange index)
        simp [isSymbol] at notFound
      rw [if_neg unlisted]
      exact ⟨_, rfl⟩
  | some index =>
      have isSymbol : vars index = symbol := by
        simpa using List.find?_some found
      rw [if_pos ⟨index, isSymbol⟩]
      exact ⟨index, rfl, isSymbol, rfl⟩

/-- An exponent is narrowed, or it is what the problems say. -/
theorem checkedExponent_ends (exponent : AtomTree) :
    EndsWith
      (fun power =>
        ∃ value, exponent = .num value ∧ power = value.num.toNat % exponentModulus)
      (exponentProblems exponent) (checkedExponent exponent) := by
  cases exponent with
  | num value =>
      simp only [exponentProblems, checkedExponent]
      by_cases integral : value.den = 1
      · by_cases negative : value.num < 0
        · simp only [integral, negative, not_le.mpr negative, and_false, ne_eq,
            not_true_eq_false, if_false, if_true]
          exact ⟨_, rfl⟩
        · have notNegative : 0 ≤ value.num := not_lt.mp negative
          have digits :
              (NumericaCore.bigIntOfString (bigIntToString value.num)).toNat =
                value.num.toNat := by
            rw [bigIntToString, if_neg negative, bigIntOfString_toDigits]
            omega
          simp only [integral, negative, notNegative, and_self, ne_eq,
            not_true_eq_false, if_false, if_true, bigintToExponent, stoul, digits]
          by_cases short : value.num < 2 ^ 64
          · have shortNat : value.num.toNat < 2 ^ 64 := by omega
            rw [if_pos short, if_pos shortNat]
            exact ⟨_, rfl, value, rfl, rfl⟩
          · have longNat : ¬ value.num.toNat < 2 ^ 64 := by omega
            rw [if_neg short, if_neg longNat]
            exact ⟨_, rfl⟩
      · simp only [integral, false_and, ne_eq, not_false_eq_true, if_false, if_true]
        exact ⟨_, rfl⟩
  | _ =>
      exact ⟨_, rfl⟩

/-- The loop of a power multiplies by the power. -/
theorem wrapped_powerLoop
    (base result : MachinePolynomial vars ℚ)
    (exponent : ℕ) :
    (powerLoop base result exponent).wrapped =
      result.wrapped * base.wrapped ^ exponent := by
  induction exponent generalizing result with
  | zero =>
      simp [powerLoop]
  | succ remaining inductionHypothesis =>
      rw [powerLoop, inductionHypothesis, MachinePolynomial.wrapped_mul, pow_succ',
        mul_assoc]

/-- The loop over the terms of a sum adds their polynomials. -/
theorem convertTerms_ends
    {value : AtomTree → MvPolynomial (Fin numVars) ℚ}
    {terms : List AtomTree}
    (all :
      ∀ term ∈ terms,
        EndsWith (fun poly => poly.wrapped = wrap exponentModulus (value term))
          (problems vars term) (convertPolynomial vars term))
    (result : MachinePolynomial vars ℚ) :
    EndsWith
      (fun poly =>
        poly.wrapped =
          result.wrapped + wrap exponentModulus (terms.map value).sum)
      (problemsOfAll vars terms) (convertTerms vars result terms) := by
  induction terms generalizing result with
  | nil =>
      exact ⟨result, rfl, by simp⟩
  | cons term rest inductionHypothesis =>
      rw [problemsOfAll, convertTerms]
      refine (all term (by simp)).bind ?_
      intro termPoly isTerm
      have restEnds := inductionHypothesis
        (fun later member => all later (by simp [member])) (result + termPoly)
      simpa [isTerm, add_assoc] using restEnds

/-- The loop over the factors of a product multiplies their polynomials. -/
theorem convertFactors_ends
    {value : AtomTree → MvPolynomial (Fin numVars) ℚ}
    {factors : List AtomTree}
    (all :
      ∀ factor ∈ factors,
        EndsWith (fun poly => poly.wrapped = wrap exponentModulus (value factor))
          (problems vars factor) (convertPolynomial vars factor))
    (result : MachinePolynomial vars ℚ) :
    EndsWith
      (fun poly =>
        poly.wrapped =
          result.wrapped * wrap exponentModulus (factors.map value).prod)
      (problemsOfAll vars factors) (convertFactors vars result factors) := by
  induction factors generalizing result with
  | nil =>
      exact ⟨result, rfl, by simp⟩
  | cons factor rest inductionHypothesis =>
      rw [problemsOfAll, convertFactors]
      refine (all factor (by simp)).bind ?_
      intro factorPoly isFactor
      have restEnds := inductionHypothesis
        (fun later member => all later (by simp [member])) (result * factorPoly)
      simpa [isFactor, mul_assoc] using restEnds

theorem polynomialsOf_eq_map
    (narrow : ℕ → ℕ)
    (trees : List AtomTree) :
    polynomialsOf vars narrow trees = trees.map (polynomialOf vars narrow) := by
  induction trees with
  | nil =>
      rfl
  | cons tree rest inductionHypothesis =>
      simp only [polynomialsOf, inductionHypothesis, List.map_cons]

/-- A symbol that is found denotes its variable. -/
theorem polynomialOf_var
    {narrow : ℕ → ℕ}
    {symbol : Symbol}
    {index : Fin numVars}
    (found : findVariable vars symbol = .ok index) :
    polynomialOf vars narrow (.var symbol) = MvPolynomial.X index := by
  rw [polynomialOf, found]

/--
The conversion ends with the first problem, or with the polynomial of the expression
with narrowed exponents in the ring of exponents modulo 2^32.
-/
theorem convertPolynomial_ends (atom : AtomTree) :
    EndsWith
      (fun poly =>
        poly.wrapped =
          wrap exponentModulus (polynomialOf vars (· % exponentModulus) atom))
      (problems vars atom) (convertPolynomial vars atom) := by
  induction atom with
  | num value =>
      refine ⟨.constant value, rfl, ?_⟩
      rw [polynomialOf, ← MultivariatePolynomial.toMvPolynomial_constant]
      rfl
  | var symbol =>
      rw [convertPolynomial]
      refine (findVariable_ends symbol).map ?_
      intro index isFound
      refine ⟨_, rfl, ?_⟩
      have denotes :
          (MultivariatePolynomial.fromTerm (.single index 1) 1 :
              MultivariatePolynomial vars ℚ).toMvPolynomial =
            MvPolynomial.X index := by
        rw [MultivariatePolynomial.toMvPolynomial_fromTerm,
          MultivariatePolynomial.toFinsupp_single]
        rfl
      rw [polynomialOf_var isFound.2, ← denotes]
      rfl
  | add terms inductionHypothesis =>
      rw [problems, convertPolynomial, polynomialOf, polynomialsOf_eq_map]
      simpa using convertTerms_ends inductionHypothesis 0
  | mul factors inductionHypothesis =>
      rw [problems, convertPolynomial, polynomialOf, polynomialsOf_eq_map]
      simpa using convertFactors_ends inductionHypothesis (.constant 1)
  | pow base exponent baseHypothesis _ =>
      rw [problems, convertPolynomial]
      refine baseHypothesis.bind ?_
      intro basePoly isBase
      refine (checkedExponent_ends exponent).map ?_
      intro power isPower
      obtain ⟨value, rfl, rfl⟩ := isPower
      refine ⟨_, rfl, ?_⟩
      rw [wrapped_powerLoop, MachinePolynomial.wrapped_one, one_mul, isBase, ← map_pow,
        polynomialOf]
  | func head arguments _ =>
      exact ⟨_, rfl⟩

theorem problemsOfAll_eq_flatMap (trees : List AtomTree) :
    problemsOfAll vars trees = trees.flatMap (problems vars) := by
  induction trees with
  | nil =>
      rfl
  | cons tree rest inductionHypothesis =>
      rw [problemsOfAll, inductionHypothesis, List.flatMap_cons]

/-- A number is a natural number when it is a non-negative integer. -/
theorem exists_natCast_iff (value : ℚ) :
    (∃ power : ℕ, value = power) ↔ value.den = 1 ∧ 0 ≤ value.num := by
  constructor
  · intro isNatural
    obtain ⟨power, rfl⟩ := isNatural
    exact ⟨Rat.den_natCast power, by simp⟩
  · intro isNatural
    refine ⟨value.num.toNat, ?_⟩
    have integral := Rat.coe_int_num_of_den_eq_one isNatural.1
    rw [← integral, Rat.num_intCast, ← Int.cast_natCast, Int.toNat_of_nonneg isNatural.2]

/-- An exponent is in order exactly when it is a natural number leaf. -/
theorem notPolynomial_mem_exponentProblems_iff (exponent : AtomTree) :
    .notPolynomial ∈ exponentProblems exponent ↔
      ¬ ∃ power : ℕ, exponent = .num power := by
  cases exponent with
  | num value =>
      simp only [exponentProblems, AtomTree.num.injEq, exists_natCast_iff]
      split_ifs with isNatural short
      · exact iff_of_false (by simp) (fun fails => fails isNatural)
      · exact iff_of_false (by simp) (fun fails => fails isNatural)
      · exact iff_of_true (by simp) isNatural
  | _ =>
      simp [exponentProblems]

/-- An expression without a Fun, an unlisted variable or another exponent is a polynomial. -/
theorem notPolynomial_mem_problems_iff (atom : AtomTree) :
    .notPolynomial ∈ problems vars atom ↔
      ¬ atom.Everywhere (PolynomialNode vars) := by
  have children
      {trees : List AtomTree}
      (each :
        ∀ tree ∈ trees,
          .notPolynomial ∈ problems vars tree ↔
            ¬ tree.Everywhere (PolynomialNode vars)) :
      .notPolynomial ∈ problemsOfAll vars trees ↔
        ¬ ∀ tree ∈ trees, tree.Everywhere (PolynomialNode vars) := by
    rw [problemsOfAll_eq_flatMap, List.mem_flatMap]
    constructor
    · intro found all
      obtain ⟨tree, member, inTree⟩ := found
      exact (each tree member).mp inTree (all tree member)
    · intro notAll
      obtain ⟨tree, member, fails⟩ := by simpa using notAll
      exact ⟨tree, member, (each tree member).mpr fails⟩
  induction atom with
  | num value =>
      rw [AtomTree.everywhere_iff]
      simp [problems, PolynomialNode, AtomTree.children]
  | var symbol =>
      rw [AtomTree.everywhere_iff]
      simp [problems, PolynomialNode, AtomTree.children]
  | add terms inductionHypothesis =>
      rw [problems, children inductionHypothesis, AtomTree.everywhere_iff]
      simp [PolynomialNode, AtomTree.children]
  | mul factors inductionHypothesis =>
      rw [problems, children inductionHypothesis, AtomTree.everywhere_iff]
      simp [PolynomialNode, AtomTree.children]
  | pow base exponent baseHypothesis _ =>
      rw [problems, List.mem_append, AtomTree.everywhere_iff]
      refine (or_congr baseHypothesis
        (notPolynomial_mem_exponentProblems_iff exponent)).trans ?_
      simp only [PolynomialNode, AtomTree.children, List.forall_mem_cons]
      constructor
      · intro someFails holds
        rcases someFails with baseFails | exponentFails
        · exact baseFails holds.2.1
        · exact exponentFails holds.1
      · intro notBoth
        by_cases isNatural : ∃ power : ℕ, exponent = .num power
        · refine Or.inl (fun baseHolds => notBoth ⟨isNatural, baseHolds, ?_, by simp⟩)
          obtain ⟨power, rfl⟩ := isNatural
          exact .node trivial (by simp [AtomTree.children])
        · exact Or.inr isNatural
  | func head arguments _ =>
      rw [AtomTree.everywhere_iff]
      simp [problems, PolynomialNode]

/-- A listed symbol is found at a place that holds it. -/
theorem exists_findVariable
    {symbol : Symbol}
    (listed : ∃ index, vars index = symbol) :
    ∃ index, vars index = symbol ∧ findVariable vars symbol = .ok index := by
  have ends := @findVariable_ends _ vars symbol
  rw [problems, if_pos listed] at ends
  obtain ⟨index, _, isFound⟩ := ends
  exact ⟨index, isFound⟩

/-- The polynomial of an expression has the value of the expression. -/
theorem eval_polynomialOf
    (values : Symbol → ℚ)
    {atom : AtomTree}
    (isPolynomial : atom.Everywhere (PolynomialNode vars)) :
    atom.eval (rationalPoint values) =
      some
        (MvPolynomial.eval (fun index => values (vars index))
          (polynomialOf vars id atom)) := by
  have children
      {trees : List AtomTree}
      (each :
        ∀ tree ∈ trees,
          tree.eval (rationalPoint values) =
            some
              (MvPolynomial.eval (fun index => values (vars index))
                (polynomialOf vars id tree))) :
      AtomTree.evalAll (rationalPoint values) trees =
        some
          ((trees.map (polynomialOf vars id)).map
            (MvPolynomial.eval (fun index => values (vars index)))) := by
    induction trees with
    | nil =>
        rfl
    | cons tree rest inductionHypothesis =>
        rw [AtomTree.evalAll, each tree (by simp),
          inductionHypothesis (fun later member => each later (by simp [member]))]
        rfl
  induction atom with
  | num value =>
      simp [AtomTree.eval, polynomialOf]
  | var symbol =>
      obtain ⟨index, isSymbol, found⟩ := exists_findVariable isPolynomial.root
      simp [AtomTree.eval, polynomialOf_var found, rationalPoint, isSymbol]
  | add terms inductionHypothesis =>
      have each := children (fun term member =>
        inductionHypothesis term member (isPolynomial.child member))
      rw [AtomTree.eval, each, polynomialOf, polynomialsOf_eq_map, map_list_sum]
      rfl
  | mul factors inductionHypothesis =>
      have each := children (fun factor member =>
        inductionHypothesis factor member (isPolynomial.child member))
      rw [AtomTree.eval, each, polynomialOf, polynomialsOf_eq_map, map_list_prod]
      rfl
  | pow base exponent baseHypothesis _ =>
      obtain ⟨power, rfl⟩ := isPolynomial.root
      have baseValue := baseHypothesis (isPolynomial.child (by simp [AtomTree.children]))
      rw [AtomTree.eval, baseValue]
      simp [AtomTree.eval, polynomialOf, rationalPoint, naturalPower]
  | func head arguments _ =>
      exact isPolynomial.root.elim

variable (vars) in
/-- What is promised of a conversion, at every rational point. -/
def MeetsContract (atom : AtomTree) : Prop :=
  (atom.Everywhere (PolynomialNode vars) →
    ∃ poly,
      atomToPolynomial vars atom = .ok poly ∧
      ∀ values, atom.eval (rationalPoint values) = some (poly.valueAt values)) ∧
  (¬ atom.Everywhere (PolynomialNode vars) →
    ∃ message, atomToPolynomial vars atom = .error (.invalidArgument message))

variable (vars) in
/--
The widths of the exponents suffice: no exponent of more than 64 bits is met first,
the polynomial that is denoted has 32-bit exponents, and cutting exponents to 32 bits
keeps it in the ring of exponents modulo 2^32.
-/
def WithinWidths (atom : AtomTree) : Prop :=
  (problems vars atom).head? ≠ some .exponentTooLong ∧
  (atom.Everywhere (PolynomialNode vars) →
    Below exponentModulus (polynomialOf vars id atom) ∧
    wrap exponentModulus (polynomialOf vars (· % exponentModulus) atom) =
      wrap exponentModulus (polynomialOf vars id atom))

/-- A node that is not a power by a number from `2 ^ 32` on. -/
def ShortExponent : AtomTree → Prop
  | .pow _ (.num value) => value.num < exponentModulus
  | _ => True

/-- With short exponents no exponent is refused for its length. -/
theorem exponentTooLong_notMem_problems
    {atom : AtomTree}
    (short : atom.Everywhere ShortExponent) :
    .exponentTooLong ∉ problems vars atom := by
  have children
      {trees : List AtomTree}
      (each : ∀ tree ∈ trees, .exponentTooLong ∉ problems vars tree) :
      .exponentTooLong ∉ problemsOfAll vars trees := by
    rw [problemsOfAll_eq_flatMap, List.mem_flatMap]
    intro found
    obtain ⟨tree, member, inTree⟩ := found
    exact each tree member inTree
  induction atom with
  | num value =>
      simp [problems]
  | var symbol =>
      simp [problems]
  | add terms inductionHypothesis =>
      exact children (fun term member =>
        inductionHypothesis term member (short.child member))
  | mul factors inductionHypothesis =>
      exact children (fun factor member =>
        inductionHypothesis factor member (short.child member))
  | pow base exponent baseHypothesis _ =>
      rw [problems, List.mem_append]
      intro found
      rcases found with inBase | inExponent
      · exact baseHypothesis (short.child (by simp [AtomTree.children])) inBase
      · cases exponent with
        | num value =>
            have isShort : value.num < exponentModulus := short.root
            have fitsWord : value.num < 2 ^ 64 := by
              rw [exponentModulus] at isShort
              omega
            rw [exponentProblems, if_pos fitsWord] at inExponent
            split at inExponent <;> simp at inExponent
        | _ =>
            simp [exponentProblems] at inExponent
  | func head arguments _ =>
      simp [problems]

/-- Cutting short exponents to 32 bits changes nothing. -/
theorem polynomialOf_mod_exponentModulus
    {atom : AtomTree}
    (short : atom.Everywhere ShortExponent) :
    polynomialOf vars (· % exponentModulus) atom = polynomialOf vars id atom := by
  induction atom with
  | num value =>
      rfl
  | var symbol =>
      rfl
  | add terms inductionHypothesis =>
      have same := List.map_congr_left (fun term member =>
        inductionHypothesis term member (short.child member))
      rw [polynomialOf, polynomialOf, polynomialsOf_eq_map, polynomialsOf_eq_map, same]
  | mul factors inductionHypothesis =>
      have same := List.map_congr_left (fun factor member =>
        inductionHypothesis factor member (short.child member))
      rw [polynomialOf, polynomialOf, polynomialsOf_eq_map, polynomialsOf_eq_map, same]
  | pow base exponent baseHypothesis _ =>
      have sameBase := baseHypothesis (short.child (by simp [AtomTree.children]))
      cases exponent with
      | num value =>
          have isShort : value.num < exponentModulus := short.root
          have positive : 0 < exponentModulus := by decide
          have kept : value.num.toNat % exponentModulus = value.num.toNat :=
            Nat.mod_eq_of_lt (by omega)
          rw [polynomialOf, polynomialOf, sameBase]
          exact congrArg (polynomialOf vars id base ^ ·) kept
      | _ =>
          rfl
  | func head arguments _ =>
      rfl

/-- Exponents below `2 ^ 32`, as written and in the polynomial, are within the widths. -/
theorem withinWidths_of_shortExponents
    {atom : AtomTree}
    (short : atom.Everywhere ShortExponent)
    (denotedShort :
      atom.Everywhere (PolynomialNode vars) →
        Below exponentModulus (polynomialOf vars id atom)) :
    WithinWidths vars atom := by
  constructor
  · intro isFirst
    exact exponentTooLong_notMem_problems short (List.mem_of_head? isFirst)
  · intro isPolynomial
    exact ⟨denotedShort isPolynomial, by rw [polynomialOf_mod_exponentModulus short]⟩

/-- Two polynomials agree at all rational points exactly when they are equal. -/
theorem forall_valueAt_iff
    (distinct : Function.Injective vars)
    {atom : AtomTree}
    (isPolynomial : atom.Everywhere (PolynomialNode vars))
    (poly : MachinePolynomial vars ℚ) :
    (∀ values, atom.eval (rationalPoint values) = some (poly.valueAt values)) ↔
      poly.toMvPolynomial = polynomialOf vars id atom := by
  constructor
  · intro agree
    refine MvPolynomial.funext (fun point => ?_)
    have atPoint := agree (Function.extend vars point 0)
    rw [eval_polynomialOf _ isPolynomial, Option.some.injEq] at atPoint
    have restricted :
        (fun index => Function.extend vars point 0 (vars index)) = point :=
      funext (fun index => distinct.extend_apply point 0 index)
    rw [MachinePolynomial.valueAt, restricted] at atPoint
    exact atPoint.symm
  · intro same values
    rw [eval_polynomialOf values isPolynomial, MachinePolynomial.valueAt, same]

/-- What is returned is the polynomial that is denoted, exactly within the widths. -/
theorem toMvPolynomial_eq_iff
    {poly : MachinePolynomial vars ℚ}
    {narrowed denoted : MvPolynomial (Fin numVars) ℚ}
    (isNarrowed : poly.wrapped = wrap exponentModulus narrowed) :
    poly.toMvPolynomial = denoted ↔
      Below exponentModulus denoted ∧
        wrap exponentModulus narrowed = wrap exponentModulus denoted := by
  rw [← isNarrowed]
  constructor
  · intro same
    rw [← same]
    exact ⟨poly.fits.below, rfl⟩
  · intro within
    exact WrappedExponents.eq_of_wrap_eq poly.fits.below within.1 within.2

/-- The conversion meets its contract exactly when the widths of the exponents suffice. -/
theorem meetsContract_iff
    (distinct : Function.Injective vars)
    (atom : AtomTree) :
    MeetsContract vars atom ↔ WithinWidths vars atom := by
  have ends := @convertPolynomial_ends _ vars atom
  have decides := @notPolynomial_mem_problems_iff _ vars atom
  rw [MeetsContract, WithinWidths]
  cases shape : problems vars atom with
  | nil =>
      rw [shape] at ends decides
      have isPolynomial : atom.Everywhere (PolynomialNode vars) := by
        by_contra fails
        exact absurd (decides.mpr fails) List.not_mem_nil
      obtain ⟨poly, returned, isNarrowed⟩ := ends
      have correct :
          (∃ result,
            atomToPolynomial vars atom = .ok result ∧
            ∀ values,
              atom.eval (rationalPoint values) = some (result.valueAt values)) ↔
            poly.toMvPolynomial = polynomialOf vars id atom := by
        rw [← forall_valueAt_iff distinct isPolynomial]
        constructor
        · intro found
          obtain ⟨result, isResult, agree⟩ := found
          cases returned.symm.trans isResult
          exact agree
        · intro agree
          exact ⟨poly, returned, agree⟩
      rw [correct, toMvPolynomial_eq_iff isNarrowed]
      simp [isPolynomial]
  | cons problem rest =>
      rw [shape] at ends decides
      cases problem with
      | notPolynomial =>
          have fails := decides.mp (by simp)
          obtain ⟨message, thrown⟩ := ends
          exact iff_of_true
            ⟨fun holds => absurd holds fails, fun _ => ⟨message, thrown⟩⟩
            ⟨by simp, fun holds => absurd holds fails⟩
      | exponentTooLong =>
          obtain ⟨message, thrown⟩ := ends
          refine iff_of_false ?_ (fun within => within.1 rfl)
          intro meets
          by_cases isPolynomial : atom.Everywhere (PolynomialNode vars)
          · obtain ⟨poly, returned, _⟩ := meets.1 isPolynomial
            cases thrown.symm.trans returned
          · obtain ⟨_, refused⟩ := meets.2 isPolynomial
            cases thrown.symm.trans refused

/-- A list of the single variable `x`. -/
def variableX : Fin 1 → Symbol :=
  fun _ => ⟨0⟩

/-- `x ^ 2` is within the widths, and its conversion meets the contract. -/
theorem meetsContract_square :
    Function.Injective variableX ∧
      MeetsContract variableX (.pow (.var ⟨0⟩) (.num 2)) := by
  have distinct : Function.Injective variableX := Function.injective_of_subsingleton _
  have found : findVariable variableX ⟨0⟩ = .ok 0 := by
    decide +kernel
  have isSquare :
      polynomialOf variableX id (.pow (.var ⟨0⟩) (.num 2)) = MvPolynomial.X 0 ^ 2 := by
    simp only [polynomialOf, found]
    rfl
  have short : (AtomTree.pow (.var ⟨0⟩) (.num 2)).Everywhere ShortExponent := by
    refine .node (by decide : (2 : ℤ) < exponentModulus) ?_
    intro child member
    have isLeaf : child = .var ⟨0⟩ ∨ child = .num 2 := by
      simpa [AtomTree.children] using member
    rcases isLeaf with rfl | rfl
    · exact .node trivial (by simp [AtomTree.children])
    · exact .node trivial (by simp [AtomTree.children])
  refine ⟨distinct,
    (meetsContract_iff distinct _).mpr (withinWidths_of_shortExponents short ?_)⟩
  intro _ exponents occurs index
  rw [isSquare, MvPolynomial.coeff_X_pow, ite_ne_right_iff] at occurs
  rw [← occurs.1, Finsupp.single_apply]
  split <;> decide

/-- `x ^ 4294967296` is converted to the constant one; its value at zero is zero. -/
theorem atomToPolynomial_long_exponent :
    atomToPolynomial variableX (.pow (.var ⟨0⟩) (.num 4294967296)) =
        .ok (.constant 1) ∧
      ¬ MeetsContract variableX (.pow (.var ⟨0⟩) (.num 4294967296)) := by
  have returned :
      atomToPolynomial variableX (.pow (.var ⟨0⟩) (.num 4294967296)) =
        .ok (.constant 1) := by
    decide +kernel
  refine ⟨returned, ?_⟩
  intro meets
  have isPolynomial :
      (AtomTree.pow (.var ⟨0⟩) (.num 4294967296)).Everywhere
        (PolynomialNode variableX) := by
    refine .node ⟨4294967296, rfl⟩ ?_
    intro child member
    have isLeaf : child = .var ⟨0⟩ ∨ child = .num 4294967296 := by
      simpa [AtomTree.children] using member
    rcases isLeaf with rfl | rfl
    · exact .node ⟨0, rfl⟩ (by simp [AtomTree.children])
    · exact .node trivial (by simp [AtomTree.children])
  obtain ⟨poly, isResult, agree⟩ := meets.1 isPolynomial
  cases returned.symm.trans isResult
  have atZero := agree (fun _ => 0)
  have denotesOne :
      (MachinePolynomial.constant 1 : MachinePolynomial variableX ℚ).toMvPolynomial = 1 :=
    (MultivariatePolynomial.toMvPolynomial_constant 1).trans (map_one _)
  rw [MachinePolynomial.valueAt, denotesOne, map_one] at atZero
  simp [AtomTree.eval, rationalPoint, naturalPower] at atZero

end PolyCore
