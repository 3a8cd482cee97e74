import Mathlib.Algebra.Field.Basic
import Mathlib.Algebra.Group.TypeTags.Basic
import Mathlib.Data.Rat.Cast.CharZero
import Stocas.Atom.Tree
import Stocas.Library.Aggregate

namespace AtomCore

open SymbolTable (Symbol Text)

/-!
# The value of an expression

Numbers, sums and products have their meaning in a field; variables, function
heads and powers are interpreted.  Functions and powers may be partial, and an
expression has a value only when all its parts have one.
-/

/-- What variables, function heads and powers stand for in a field. -/
structure Interpretation (K : Type*) where
  variableValue : Symbol → K
  function : Symbol → List K → Option K
  power : K → K → Option K

namespace AtomTree

variable {K : Type*} [Field K]

mutual

/-- The value of an expression, if it is defined. -/
def eval (meaning : Interpretation K) : AtomTree → Option K
  | .num value => some (value : K)
  | .var symbol => some (meaning.variableValue symbol)
  | .add terms => (evalAll meaning terms).map List.sum
  | .mul factors => (evalAll meaning factors).map List.prod
  | .pow base exponent =>
      (eval meaning base).bind fun baseValue =>
        (eval meaning exponent).bind fun exponentValue =>
          meaning.power baseValue exponentValue
  | .func head arguments =>
      (evalAll meaning arguments).bind (meaning.function head)

/-- The values of some expressions, if all are defined. -/
def evalAll (meaning : Interpretation K) : List AtomTree → Option (List K)
  | [] => some []
  | tree :: rest =>
      (eval meaning tree).bind fun value =>
        (evalAll meaning rest).map fun values => value :: values

end

variable {meaning : Interpretation K}

/-- Expressions have values together when they have them one by one. -/
theorem evalAll_eq_some_iff
    {trees : List AtomTree}
    {values : List K} :
    evalAll meaning trees = some values ↔
      List.Forall₂ (fun tree value => eval meaning tree = some value)
        trees values := by
  induction trees generalizing values with
  | nil =>
      simp [evalAll, eq_comm]
  | cons tree rest inductionHypothesis =>
      simp only [evalAll, Option.bind_eq_some_iff, Option.map_eq_some_iff,
        inductionHypothesis]
      constructor
      · rintro ⟨value, first, others, later, rfl⟩
        exact List.Forall₂.cons first later
      · intro all
        cases all with
        | @cons _ value _ others first later =>
            exact ⟨value, first, others, later, rfl⟩

/-- Replacing expressions by ones with the same values keeps the values. -/
theorem evalAll_map
    {replace : AtomTree → AtomTree}
    {trees : List AtomTree}
    {values : List K}
    (all : evalAll meaning trees = some values)
    (sameValue :
      ∀ tree ∈ trees, ∀ value,
        eval meaning tree = some value →
        eval meaning (replace tree) = some value) :
    evalAll meaning (trees.map replace) = some values := by
  rw [evalAll_eq_some_iff] at all ⊢
  induction all with
  | nil =>
      exact List.Forall₂.nil
  | cons first _ inductionHypothesis =>
      refine List.Forall₂.cons (sameValue _ (by simp) _ first) ?_
      exact inductionHypothesis fun tree member =>
        sameValue tree (by simp [member])

/-- The tree has this value, written multiplicatively. -/
def HasFactor
    (meaning : Interpretation K)
    (tree : AtomTree)
    (value : K) : Prop :=
  eval meaning tree = some value

/-- The tree has this value, written additively. -/
def HasTerm
    (meaning : Interpretation K)
    (tree : AtomTree)
    (value : Multiplicative K) : Prop :=
  eval meaning tree = some value.toAdd

open Aggregate (Total total_nil total_cons)

/-- A sum has the total of its terms. -/
theorem eval_add_iff
    {terms : List AtomTree}
    {value : K} :
    eval meaning (.add terms) = some value ↔
      Total (HasTerm meaning) terms (Multiplicative.ofAdd value) := by
  simp only [eval, Option.map_eq_some_iff, evalAll_eq_some_iff]
  induction terms generalizing value with
  | nil =>
      rw [total_nil]
      constructor
      · rintro ⟨values, all, rfl⟩
        cases all
        rfl
      · intro isUnit
        exact ⟨[], List.Forall₂.nil, (ofAdd_eq_one.mp isUnit).symm⟩
  | cons term rest inductionHypothesis =>
      rw [total_cons]
      constructor
      · rintro ⟨values, all, rfl⟩
        cases all with
        | @cons _ first _ others head later =>
            exact ⟨Multiplicative.ofAdd first, Multiplicative.ofAdd others.sum,
              head, inductionHypothesis.mp ⟨others, later, rfl⟩,
              by rw [List.sum_cons, ofAdd_add]⟩
      · rintro ⟨first, others, head, later, same⟩
        rw [← ofAdd_toAdd others] at later
        obtain ⟨values, all, isSum⟩ := inductionHypothesis.mpr later
        refine ⟨first.toAdd :: values, List.Forall₂.cons head all, ?_⟩
        rw [List.sum_cons, isSum]
        exact congrArg Multiplicative.toAdd same

/-- A product has the total of its factors. -/
theorem eval_mul_iff
    {factors : List AtomTree}
    {value : K} :
    eval meaning (.mul factors) = some value ↔
      Total (HasFactor meaning) factors value := by
  simp only [eval, Option.map_eq_some_iff, evalAll_eq_some_iff]
  exact Iff.rfl

/-- A power applies the interpretation to the values of its parts. -/
theorem eval_pow_iff
    {base exponent : AtomTree}
    {value : K} :
    eval meaning (.pow base exponent) = some value ↔
      ∃ baseValue exponentValue,
        eval meaning base = some baseValue ∧
          eval meaning exponent = some exponentValue ∧
          meaning.power baseValue exponentValue = some value := by
  simp only [eval, Option.bind_eq_some_iff]
  constructor
  · rintro ⟨baseValue, isBase, exponentValue, isExponent, isPower⟩
    exact ⟨baseValue, exponentValue, isBase, isExponent, isPower⟩
  · rintro ⟨baseValue, exponentValue, isBase, isExponent, isPower⟩
    exact ⟨baseValue, isBase, exponentValue, isExponent, isPower⟩

/-- A spliced sum keeps the total of its terms. -/
theorem eval_mkAdd
    {terms : List AtomTree}
    {value : Multiplicative K}
    (total : Total (HasTerm meaning) terms value) :
    HasTerm meaning (mkAdd terms) value := by
  rw [HasTerm, mkAdd, eval_add_iff, ofAdd_toAdd]
  refine Total.perm ?_ (perm_variadicChildren .add terms).symm
  refine total.flatMap fun term _ termValue denoted => ?_
  rw [operandsOf]
  split_ifs with isAdd
  · cases term <;> cases isAdd
    exact eval_add_iff.mp denoted
  · exact Aggregate.total_singleton.mpr denoted

/-- A spliced product keeps the total of its factors. -/
theorem eval_mkMul
    {factors : List AtomTree}
    {value : K}
    (total : Total (HasFactor meaning) factors value) :
    HasFactor meaning (mkMul factors) value := by
  rw [HasFactor, mkMul, eval_mul_iff]
  refine Total.perm ?_ (perm_variadicChildren .mul factors).symm
  refine total.flatMap fun factor _ factorValue denoted => ?_
  rw [operandsOf]
  split_ifs with isMul
  · cases factor <;> cases isMul
    exact eval_mul_iff.mp denoted
  · exact Aggregate.total_singleton.mpr denoted

/-- Expressions have values together exactly when each has one. -/
theorem isSome_evalAll_iff
    {trees : List AtomTree} :
    (evalAll meaning trees).isSome ↔ ∀ tree ∈ trees, (eval meaning tree).isSome := by
  induction trees with
  | nil =>
      simp [evalAll]
  | cons tree rest inductionHypothesis =>
      rw [List.forall_mem_cons, ← inductionHypothesis, evalAll]
      cases eval meaning tree with
      | none =>
          simp
      | some value =>
          simp

/-- A spliced sum has the value of the sum, and none when the sum has none. -/
theorem eval_mkAdd_eq
    (terms : List AtomTree) :
    eval meaning (mkAdd terms) = (evalAll meaning terms).map List.sum := by
  cases outcome : evalAll meaning terms with
  | some values =>
      have total : eval meaning (.add terms) = some values.sum := by
        rw [eval, outcome, Option.map_some]
      exact eval_mkAdd (eval_add_iff.mp total)
  | none =>
      rw [mkAdd, eval, Option.map_none, Option.map_eq_none_iff]
      by_contra defined
      have all :=
        (forall_variadicChildren_iff
          (fun operand isAdd => by
            cases operand <;> cases isAdd
            rw [eval, Option.isSome_map, isSome_evalAll_iff, children])
          terms).mp (isSome_evalAll_iff.mp (Option.isSome_iff_ne_none.mpr defined))
      rw [← isSome_evalAll_iff, outcome] at all
      cases all

/-- A spliced product has the value of the product, and none when it has none. -/
theorem eval_mkMul_eq
    (factors : List AtomTree) :
    eval meaning (mkMul factors) = (evalAll meaning factors).map List.prod := by
  cases outcome : evalAll meaning factors with
  | some values =>
      have total : eval meaning (.mul factors) = some values.prod := by
        rw [eval, outcome, Option.map_some]
      exact eval_mkMul (eval_mul_iff.mp total)
  | none =>
      rw [mkMul, eval, Option.map_none, Option.map_eq_none_iff]
      by_contra defined
      have all :=
        (forall_variadicChildren_iff
          (fun operand isMul => by
            cases operand <;> cases isMul
            rw [eval, Option.isSome_map, isSome_evalAll_iff, children])
          factors).mp (isSome_evalAll_iff.mp (Option.isSome_iff_ne_none.mpr defined))
      rw [← isSome_evalAll_iff, outcome] at all
      cases all

end AtomTree

end AtomCore
