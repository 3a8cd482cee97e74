import Stocas.Poly.ConversionValue
import Stocas.Poly.RationalAtomForm

namespace PolyCore

open AtomCore (AtomStore AtomTree Interpretation StringHash)
open AtomCore.AtomTree (eval evalAll evalAll_eq_some_iff eval_mkAdd_eq eval_mkMul_eq
  eval_pow_iff everywhere_variadicChildren mkAdd mkMul)
open SymbolTable (Symbol)
open WrappedExponents (wrap)

/-!
# Polynomials and their atoms

The atom of a polynomial has the values of the polynomial, and the conversion reads the
polynomial back from it.
-/

/-- Powers by natural numbers are those of the rationals, others are free. -/
def NaturalPowers (meaning : Interpretation ℚ) : Prop :=
  ∀ (base : ℚ) (exponent : ℕ), meaning.power base exponent = some (base ^ exponent)

variable {numVars : ℕ} {vars : Fin numVars → Symbol} {meaning : Interpretation ℚ}

/-- Atoms that are written for some items have values when they have them one by one. -/
theorem evalAll_map_eq
    {α : Type}
    {items : List α}
    {tree : α → AtomTree}
    {value : α → ℚ}
    (each : ∀ item ∈ items, (tree item).eval meaning = some (value item)) :
    evalAll meaning (items.map tree) = some (items.map value) := by
  rw [evalAll_eq_some_iff, List.forall₂_map_left_iff, List.forall₂_map_right_iff,
    List.forall₂_same]
  exact each

/-- One operand or several, when the builder combines their values. -/
theorem eval_unlessSingle
    {build : List AtomTree → AtomTree}
    {combine : List ℚ → ℚ}
    (builds : ∀ trees, (build trees).eval meaning = (evalAll meaning trees).map combine)
    (single : ∀ value, combine [value] = value)
    {trees : List AtomTree}
    {values : List ℚ}
    (all : evalAll meaning trees = some values) :
    (unlessSingle id build trees).eval meaning = some (combine values) := by
  have built : (build trees).eval meaning = some (combine values) := by
    rw [builds, all, Option.map_some]
  match trees with
  | [only] =>
      rw [evalAll_eq_some_iff] at all
      cases all with
      | cons first rest =>
          cases rest
          rw [unlessSingle, id, first, single]
  | [] =>
      exact built
  | _ :: _ :: _ =>
      exact built

/-- A factor has the value of the power of its variable. -/
theorem eval_factorTree
    (powers : NaturalPowers meaning)
    (monomial : Monomial numVars)
    (index : Fin numVars) :
    (factorTree vars monomial index).eval meaning =
      some (meaning.variableValue (vars index) ^ monomial.exponent index) := by
  rw [factorTree]
  split
  · rename_i isOne
    rw [isOne, pow_one, eval]
  · refine eval_pow_iff.mpr ⟨_, _, by rw [eval], by rw [eval], ?_⟩
    rw [Rat.cast_id]
    exact powers _ _

/-- Variables that do not occur do not contribute to the value of a monomial. -/
theorem prod_occurring
    (point : Fin numVars → ℚ)
    (monomial : Monomial numVars) :
    ((occurring monomial).map fun index => point index ^ monomial.exponent index).prod =
      ∏ index, point index ^ monomial.exponent index := by
  have distinct : (occurring monomial).Nodup := (List.nodup_finRange numVars).filter _
  rw [← List.prod_toFinset _ distinct]
  refine Finset.prod_subset (Finset.subset_univ _) ?_
  intro index _ absent
  rw [List.mem_toFinset, mem_occurring, not_not] at absent
  rw [absent, pow_zero]

/-- A monomial has the product of the powers as its value. -/
theorem eval_monomial_toFinsupp
    (point : Fin numVars → ℚ)
    (monomial : Monomial numVars)
    (coefficient : ℚ) :
    MvPolynomial.eval point (MvPolynomial.monomial monomial.toFinsupp coefficient) =
      coefficient *
        ((occurring monomial).map fun index => point index ^ monomial.exponent index).prod := by
  rw [MvPolynomial.eval_monomial, prod_occurring,
    Finsupp.prod_fintype _ _ fun index => pow_zero (point index)]
  rfl

/-- The point of an interpretation. -/
def variableValues
    (vars : Fin numVars → Symbol)
    (meaning : Interpretation ℚ) :
    Fin numVars → ℚ :=
  fun index => meaning.variableValue (vars index)

/-- The atom of a term has the value of the term. -/
theorem eval_termTree
    (powers : NaturalPowers meaning)
    (term : Term numVars ℚ) :
    (termTree vars term).eval meaning =
      some
        (MvPolynomial.eval (variableValues vars meaning)
          (MvPolynomial.monomial term.1.toFinsupp term.2)) := by
  have factors :
      evalAll meaning (monomialTrees vars term.1) =
        some ((occurring term.1).map fun index =>
          variableValues vars meaning index ^ term.1.exponent index) :=
    evalAll_map_eq fun index _ => eval_factorTree powers term.1 index
  rw [eval_monomial_toFinsupp, termTree, termOperands]
  split
  · have operands :
        evalAll meaning (.num term.2 :: monomialTrees vars term.1) =
          some (term.2 :: (occurring term.1).map fun index =>
            variableValues vars meaning index ^ term.1.exponent index) := by
      rw [evalAll, factors, eval, Rat.cast_id]
      rfl
    rw [eval_unlessSingle eval_mkMul_eq (fun _ => List.prod_singleton) operands,
      List.prod_cons]
  · rename_i noCoefficient
    obtain ⟨-, isOne⟩ := not_or.mp noCoefficient
    rw [eval_unlessSingle eval_mkMul_eq (fun _ => List.prod_singleton) factors,
      not_not.mp isOne, one_mul]

/-- The atom of a polynomial has the value of the polynomial. -/
theorem eval_polynomialTree
    (powers : NaturalPowers meaning)
    (polynomial : MachinePolynomial vars ℚ) :
    (polynomialTree polynomial).eval meaning =
      some (MvPolynomial.eval (variableValues vars meaning) polynomial.toMvPolynomial) := by
  rw [polynomialTree]
  split
  · rename_i isZero
    rw [MultivariatePolynomial.isZero_iff.mp isZero, map_zero, eval, Rat.cast_zero]
  · have terms := evalAll_map_eq fun term (_ : term ∈ polynomial.terms) =>
      @eval_termTree _ vars _ powers term
    rw [eval_unlessSingle eval_mkAdd_eq (fun _ => List.sum_singleton) terms,
      MultivariatePolynomial.toMvPolynomial, MultivariatePolynomial.termsValue, map_list_sum,
      List.map_map]
    rfl

/-- A node that is converted, with an exponent that is not narrowed. -/
def ShortNode (vars : Fin numVars → Symbol) : AtomTree → Prop
  | .var symbol => ∃ index, vars index = symbol
  | .pow _ exponent => ∃ power < exponentModulus, exponent = .num (power : ℕ)
  | .func _ _ => False
  | _ => True

theorem ShortNode.polynomialNode
    {tree : AtomTree}
    (short : ShortNode vars tree) :
    PolynomialNode vars tree := by
  cases tree with
  | pow base exponent =>
      obtain ⟨power, -, same⟩ := short
      exact ⟨power, same⟩
  | _ =>
      exact short

/-- Nothing is thrown for such nodes. -/
theorem problems_of_short
    {tree : AtomTree}
    (short : tree.Everywhere (ShortNode vars)) :
    problems vars tree = [] := by
  have children
      {trees : List AtomTree}
      (each : ∀ tree ∈ trees, problems vars tree = []) :
      problemsOfAll vars trees = [] := by
    rw [problemsOfAll_eq_flatMap, List.flatMap_eq_nil_iff]
    exact each
  induction tree with
  | num value =>
      rfl
  | var symbol =>
      exact if_pos short.root
  | add terms inductionHypothesis =>
      exact children fun term member => inductionHypothesis term member (short.child member)
  | mul factors inductionHypothesis =>
      exact children fun factor member =>
        inductionHypothesis factor member (short.child member)
  | pow base exponent baseHypothesis _ =>
      obtain ⟨power, inRange, rfl⟩ := short.root
      have fitsLong : power < 2 ^ 64 := inRange.trans (by decide)
      have baseProblems := baseHypothesis (short.child (by simp [AtomTree.children]))
      simpa [problems, baseProblems, exponentProblems] using fitsLong
  | func head arguments _ =>
      exact short.root.elim

/-- Such exponents are not narrowed. -/
theorem polynomialOf_of_short
    {tree : AtomTree}
    (short : tree.Everywhere (ShortNode vars)) :
    polynomialOf vars (· % exponentModulus) tree = polynomialOf vars id tree := by
  induction tree with
  | num value =>
      rfl
  | var symbol =>
      rfl
  | add terms inductionHypothesis =>
      rw [polynomialOf, polynomialOf, polynomialsOf_eq_map, polynomialsOf_eq_map]
      exact congrArg List.sum (List.map_congr_left fun term member =>
        inductionHypothesis term member (short.child member))
  | mul factors inductionHypothesis =>
      rw [polynomialOf, polynomialOf, polynomialsOf_eq_map, polynomialsOf_eq_map]
      exact congrArg List.prod (List.map_congr_left fun factor member =>
        inductionHypothesis factor member (short.child member))
  | pow base exponent baseHypothesis _ =>
      obtain ⟨power, inRange, rfl⟩ := short.root
      rw [polynomialOf, polynomialOf, baseHypothesis (short.child (by simp [AtomTree.children])),
        Rat.num_natCast, Int.toNat_natCast, Nat.mod_eq_of_lt inRange]
      rfl
  | func head arguments _ =>
      exact short.root.elim

theorem short_num (value : ℚ) : (AtomTree.num value).Everywhere (ShortNode vars) :=
  .node trivial fun _ member => (List.not_mem_nil member).elim

/-- The factors of a term are such trees. -/
theorem short_factorTree
    {monomial : Monomial numVars}
    (fits : monomial.Fits)
    (index : Fin numVars) :
    (factorTree vars monomial index).Everywhere (ShortNode vars) := by
  have variableShort : (AtomTree.var (vars index)).Everywhere (ShortNode vars) :=
    .node ⟨index, rfl⟩ fun _ member => (List.not_mem_nil member).elim
  rw [factorTree]
  split
  · exact variableShort
  · refine .node ⟨monomial.exponent index, fits index, rfl⟩ ?_
    simp only [AtomTree.children, List.forall_mem_cons]
    exact ⟨variableShort, short_num _, List.forall_mem_nil _⟩

/-- One operand or several, when the builder keeps a property. -/
theorem unlessSingle_keeps
    {property : AtomTree → Prop}
    {build : List AtomTree → AtomTree}
    {trees : List AtomTree}
    (builds : property (build trees))
    (all : ∀ tree ∈ trees, property tree) :
    property (unlessSingle id build trees) := by
  match trees with
  | [only] =>
      exact all only (List.mem_singleton_self only)
  | [] =>
      exact builds
  | _ :: _ :: _ =>
      exact builds

/-- The tree of a polynomial is such a tree. -/
theorem short_polynomialTree (polynomial : MachinePolynomial vars ℚ) :
    (polynomialTree polynomial).Everywhere (ShortNode vars) := by
  rw [polynomialTree]
  split
  · exact short_num 0
  · have terms :
        ∀ tree ∈ polynomial.terms.map (termTree vars), tree.Everywhere (ShortNode vars) := by
      rw [List.forall_mem_map]
      intro term member
      have factors :
          ∀ tree ∈ monomialTrees vars term.1, tree.Everywhere (ShortNode vars) := by
        rw [monomialTrees, List.forall_mem_map]
        exact fun index _ => short_factorTree (polynomial.fits term member) index
      have operands :
          ∀ tree ∈ termOperands vars term, tree.Everywhere (ShortNode vars) := by
        rw [termOperands]
        split
        · exact List.forall_mem_cons.mpr ⟨short_num term.2, factors⟩
        · exact factors
      exact unlessSingle_keeps (.node trivial (everywhere_variadicChildren operands)) operands
    exact unlessSingle_keeps (.node trivial (everywhere_variadicChildren terms)) terms

/-- Rational points have natural powers. -/
theorem naturalPowers_rationalPoint (values : Symbol → ℚ) :
    NaturalPowers (rationalPoint values) := by
  intro base exponent
  simp [rationalPoint, naturalPower]

/-- The tree of a polynomial in distinct variables denotes the polynomial. -/
theorem polynomialOf_polynomialTree
    (distinct : Function.Injective vars)
    (polynomial : MachinePolynomial vars ℚ) :
    polynomialOf vars id (polynomialTree polynomial) = polynomial.toMvPolynomial := by
  have isPolynomial :=
    (short_polynomialTree polynomial).imp fun _ => ShortNode.polynomialNode
  refine ((forall_valueAt_iff distinct isPolynomial polynomial).mp ?_).symm
  intro values
  exact eval_polynomialTree (naturalPowers_rationalPoint values) polynomial

/-- The conversion of the tree of a polynomial returns the polynomial. -/
theorem atomToPolynomial_polynomialTree
    (distinct : Function.Injective vars)
    (polynomial : MachinePolynomial vars ℚ) :
    atomToPolynomial vars (polynomialTree polynomial) = .ok polynomial := by
  have short := short_polynomialTree polynomial
  have ends := @convertPolynomial_ends _ vars (polynomialTree polynomial)
  rw [problems_of_short short, polynomialOf_of_short short,
    polynomialOf_polynomialTree distinct] at ends
  obtain ⟨result, returned, sameWrapped⟩ := ends
  rw [atomToPolynomial, returned]
  exact congrArg Except.ok (MachinePolynomial.wrapped_injective sameWrapped)

/--
In every reachable arena, the atom of a polynomial in distinct variables is converted
back to the polynomial, and it is normalized to its own slot.
-/
theorem polynomialToAtom_round_trip
    [StringHash]
    {store : AtomStore}
    (reachable : store.Reachable)
    (distinct : Function.Injective vars)
    (polynomial : MachinePolynomial vars ℚ) :
    let built := polynomialToAtom polynomial store
    atomToPolynomial vars (built.2.tree built.1) = .ok polynomial ∧
      (built.2.normalize built.1).1 = built.1 := by
  intro built
  have written := polynomialToAtom_built reachable.invariant polynomial
  refine ⟨?_, ?_⟩
  · rw [written.tree_eq]
    exact atomToPolynomial_polynomialTree distinct polynomial
  · refine written.normalize_eq_iff.mpr ?_
    exact (normal_polynomialTree_iff polynomial).mpr (termsApart_of_injective distinct polynomial)

/-- `3*x^2` is converted to its atom and back. -/
theorem polynomialToAtom_square :
    let constant : StringHash := ⟨fun _ => 0⟩
    let square : MachinePolynomial variableX ℚ :=
      .fromTerm (Monomial.single 0 2) MultivariatePolynomial.fits_square 3
    let built := @polynomialToAtom _ constant _ square .empty
    atomToPolynomial variableX (built.2.tree built.1) = .ok square ∧
      (@AtomStore.normalize constant built.2 built.1).1 = built.1 :=
  @polynomialToAtom_round_trip _ _ ⟨fun _ => 0⟩ .empty ⟨[], Transition.everyStep_nil, rfl⟩
    (Function.injective_of_subsingleton _) _

end PolyCore
