import Mathlib.Algebra.BigOperators.Fin
import Stocas.Atom.NormalizeStore
import Stocas.Poly.RationalPolynomial

namespace PolyCore

open AtomCore (AtomStore AtomTree StringHash)
open AtomCore.AtomStore (Built BuiltAll builtAll_nil num_built var_built)
open SymbolTable (Symbol)

/-!
# From polynomials to expressions

`polynomial_to_atom` writes out every term as a product of its coefficient and the
powers of its variables.  The arena calls deliver slots of the trees that are written
out without an arena beside them.
-/

/-- `total_degree`: the exponents are added up in 32 bits. -/
def Monomial.totalDegree
    {numVars : ℕ}
    (monomial : Monomial numVars) :
    ℕ :=
  (List.finRange numVars).foldl
    (fun total index => (total + monomial.exponent index) % exponentModulus) 0

/-- The total degree is the sum of the exponents, in 32 bits. -/
theorem Monomial.totalDegree_eq
    {numVars : ℕ}
    (monomial : Monomial numVars) :
    monomial.totalDegree = (∑ index, monomial.exponent index) % exponentModulus := by
  have folded :
      ∀ (indices : List (Fin numVars)) (start : ℕ),
        indices.foldl
            (fun total index => (total + monomial.exponent index) % exponentModulus)
            (start % exponentModulus) =
          (start + (indices.map monomial.exponent).sum) % exponentModulus := by
    intro indices
    induction indices with
    | nil =>
        intro start
        rfl
    | cons index rest inductionHypothesis =>
        intro start
        rw [List.foldl_cons, Nat.mod_add_mod, inductionHypothesis, List.map_cons,
          List.sum_cons, add_assoc]
  have total := folded (List.finRange numVars) 0
  rw [Nat.zero_mod, zero_add] at total
  rw [totalDegree, total, Fin.sum_univ_def]

/-- One operand stands for itself, and any other number of them goes to a builder. -/
def unlessSingle
    {α β : Type}
    (single : α → β)
    (build : List α → β) :
    List α → β
  | [only] => single only
  | operands => build operands

/-- One operand or several. -/
theorem unlessSingle_cases
    {α β : Type}
    (single : α → β)
    (build : List α → β)
    {operands : List α}
    (nonempty : operands ≠ []) :
    (∃ only, operands = [only] ∧ unlessSingle single build operands = single only) ∨
      2 ≤ operands.length ∧ unlessSingle single build operands = build operands := by
  match operands, nonempty with
  | [only], _ =>
      exact Or.inl ⟨only, rfl, rfl⟩
  | _ :: _ :: _, _ =>
      exact Or.inr ⟨by simp, rfl⟩

/-- Reordered operands give the same when the builder reorders them. -/
theorem unlessSingle_perm
    {α : Type}
    {build : List α → α}
    {operands others : List α}
    (permuted : operands.Perm others)
    (same : build operands = build others) :
    unlessSingle id build operands = unlessSingle id build others := by
  match operands, others, permuted with
  | [], others, permuted =>
      rw [permuted.nil_eq]
  | [only], others, permuted =>
      rw [List.singleton_perm.mp permuted]
  | first :: second :: rest, [], permuted =>
      exact absurd permuted.length_eq (by simp)
  | first :: second :: rest, [only], permuted =>
      exact absurd permuted.length_eq (by simp)
  | _ :: _ :: _, _ :: _ :: _, _ =>
      exact same

variable {numVars : ℕ}

section Slots

variable [StringHash] (vars : Fin numVars → Symbol)

/-- The factor of a variable that occurs. -/
def factorSlot
    (monomial : Monomial numVars)
    (store : AtomStore)
    (index : Fin numVars) :
    ℕ × AtomStore :=
  let (varAtom, store) := store.var (vars index)
  if monomial.exponent index = 1 then
    (varAtom, store)
  else
    let (exponentAtom, store) := store.num (monomial.exponent index)
    store.pow varAtom exponentAtom

/-- The loop over the variables of a term. -/
def factorSlots
    (monomial : Monomial numVars)
    (store : AtomStore) :
    List (Fin numVars) → List ℕ × AtomStore
  | [] => ([], store)
  | index :: rest =>
      if monomial.exponent index = 0 then
        factorSlots monomial store rest
      else
        let (factor, store) := factorSlot vars monomial store index
        let (factors, store) := factorSlots monomial store rest
        (factor :: factors, store)

/-- One round of the loop over the terms. -/
def termSlot
    (store : AtomStore)
    (term : Term numVars ℚ) :
    ℕ × AtomStore :=
  let (factors, store) := factorSlots vars term.1 store (List.finRange numVars)
  let (factors, store) :=
    if factors = [] ∨ term.2 ≠ 1 then
      let (coefficient, store) := store.num term.2
      (coefficient :: factors, store)
    else
      (factors, store)
  unlessSingle (fun only => (only, store)) store.mul factors

/-- The loop over the terms. -/
def termSlots
    (store : AtomStore) :
    List (Term numVars ℚ) → List ℕ × AtomStore
  | [] => ([], store)
  | term :: rest =>
      let (termAtom, store) := termSlot vars store term
      let (termAtoms, store) := termSlots store rest
      (termAtom :: termAtoms, store)

variable {vars}

/-- `polynomial_to_atom`. -/
def polynomialToAtom
    (polynomial : MachinePolynomial vars ℚ)
    (store : AtomStore) :
    ℕ × AtomStore :=
  if polynomial.isZero then
    store.num 0
  else
    let (termAtoms, store) := termSlots vars store polynomial.terms
    unlessSingle (fun only => (only, store)) store.add termAtoms

omit [StringHash] in
/-- The test for denominator 1, which looks at the total degree. -/
def denominatorIsOne (denominator : MachinePolynomial vars ℚ) : Bool :=
  match denominator.terms with
  | [leading] => decide (leading.1.totalDegree = 0 ∧ leading.2 = 1)
  | _ => false

/-- `rational_polynomial_to_atom`. -/
def rationalPolynomialToAtom
    (polynomial : RationalPolynomial vars)
    (store : AtomStore) :
    ℕ × AtomStore :=
  let (numeratorAtom, store) := polynomialToAtom polynomial.numerator store
  if denominatorIsOne polynomial.denominator then
    (numeratorAtom, store)
  else
    let (denominatorAtom, store) := polynomialToAtom polynomial.denominator store
    let (minusOne, store) := store.num (-1)
    let (invDenominatorAtom, store) := store.pow denominatorAtom minusOne
    store.mul [numeratorAtom, invDenominatorAtom]

end Slots

section Trees

variable (vars : Fin numVars → Symbol)

/-- The factor of a variable that occurs: the variable or a power. -/
def factorTree
    (monomial : Monomial numVars)
    (index : Fin numVars) :
    AtomTree :=
  if monomial.exponent index = 1 then
    .var (vars index)
  else
    .pow (.var (vars index)) (.num (monomial.exponent index))

/-- The variables that occur in a monomial, in order. -/
def occurring (monomial : Monomial numVars) : List (Fin numVars) :=
  (List.finRange numVars).filter fun index => monomial.exponent index ≠ 0

/-- The powers of the variables of a monomial. -/
def monomialTrees (monomial : Monomial numVars) : List AtomTree :=
  (occurring monomial).map (factorTree vars monomial)

/-- The operands of a term. -/
def termOperands (term : Term numVars ℚ) : List AtomTree :=
  if monomialTrees vars term.1 = [] ∨ term.2 ≠ 1 then
    .num term.2 :: monomialTrees vars term.1
  else
    monomialTrees vars term.1

/-- The tree of a term. -/
def termTree (term : Term numVars ℚ) : AtomTree :=
  unlessSingle id .mkMul (termOperands vars term)

variable {vars}

/-- The tree that `polynomial_to_atom` builds. -/
def polynomialTree (polynomial : MachinePolynomial vars ℚ) : AtomTree :=
  if polynomial.isZero then
    .num 0
  else
    unlessSingle id .mkAdd (polynomial.terms.map (termTree vars))

/-- The tree that `rational_polynomial_to_atom` builds. -/
def rationalPolynomialTree (polynomial : RationalPolynomial vars) : AtomTree :=
  if denominatorIsOne polynomial.denominator then
    polynomialTree polynomial.numerator
  else
    .mkMul
      [polynomialTree polynomial.numerator,
        .pow (polynomialTree polynomial.denominator) (.num (-1))]

end Trees

section Refinement

variable [StringHash] (vars : Fin numVars → Symbol)

/-- The factor of a variable is built. -/
theorem factorSlot_built
    (monomial : Monomial numVars)
    {store : AtomStore}
    (invariant : store.Invariant)
    (index : Fin numVars) :
    Built store (factorSlot vars monomial store index) (factorTree vars monomial index) := by
  have variableBuilt := var_built invariant (vars index)
  by_cases isOne : monomial.exponent index = 1
  · simp only [factorSlot, factorTree, if_pos isOne]
    exact variableBuilt
  · simp only [factorSlot, factorTree, if_neg isOne]
    have exponentBuilt :=
      num_built variableBuilt.invariant (monomial.exponent index : ℚ)
    exact variableBuilt.pow exponentBuilt

/-- The factors of a term are built in the order of the variables. -/
theorem factorSlots_built
    (monomial : Monomial numVars)
    {store : AtomStore}
    (invariant : store.Invariant)
    (indices : List (Fin numVars)) :
    BuiltAll store (factorSlots vars monomial store indices)
      ((indices.filter fun index => monomial.exponent index ≠ 0).map
        (factorTree vars monomial)) := by
  induction indices generalizing store with
  | nil =>
      exact builtAll_nil invariant
  | cons index rest inductionHypothesis =>
      rw [factorSlots]
      split
      · rename_i isZero
        simpa [isZero] using inductionHypothesis invariant
      · rename_i isNonzero
        have factorBuilt := factorSlot_built vars monomial invariant index
        simpa [isNonzero] using
          factorBuilt.cons (inductionHypothesis factorBuilt.invariant)

/-- A single operand stands for itself, and several go to the builder. -/
theorem several_built
    {store : AtomStore}
    {operands : List ℕ × AtomStore}
    {trees : List AtomTree}
    (built : BuiltAll store operands trees)
    {builder : List ℕ → ℕ × AtomStore}
    {build : List AtomTree → AtomTree}
    (builds : Built store (builder operands.1) (build trees)) :
    Built store (unlessSingle (fun only => (only, operands.2)) builder operands.1)
      (unlessSingle id build trees) := by
  obtain ⟨slots, grown⟩ := operands
  match slots, trees, built.trees_eq with
  | [], [], _ =>
      exact builds
  | [_], [_], _ =>
      exact built.only
  | _ :: _ :: _, _ :: _ :: _, _ =>
      exact builds

/-- A slot that is built later may be put first. -/
theorem insertFirst_built
    {store : AtomStore}
    {rest : List ℕ × AtomStore}
    {trees : List AtomTree}
    (built : BuiltAll store rest trees)
    {first : ℕ × AtomStore}
    {tree : AtomTree}
    (later : Built rest.2 first tree) :
    BuiltAll store (first.1 :: rest.1, first.2) (tree :: trees) where
  invariant := later.invariant
  growth := built.growth.trans later.growth
  inside := by
    intro slot member
    rcases List.mem_cons.mp member with rfl | member
    · exact later.inside
    · exact later.growth.inside (built.inside slot member)
  trees_eq := by
    rw [List.map_cons, later.tree_eq, later.growth.map_tree built.invariant later.invariant
      built.inside, built.trees_eq]

/-- A term is built. -/
theorem termSlot_built
    {store : AtomStore}
    (invariant : store.Invariant)
    (term : Term numVars ℚ) :
    Built store (termSlot vars store term) (termTree vars term) := by
  have factorsBuilt :=
    factorSlots_built vars term.1 invariant (List.finRange numVars)
  have noneOccurs :
      (factorSlots vars term.1 store (List.finRange numVars)).1 = [] ↔
        monomialTrees vars term.1 = [] := by
    rw [monomialTrees, occurring, ← factorsBuilt.trees_eq, List.map_eq_nil_iff]
  by_cases needsCoefficient : monomialTrees vars term.1 = [] ∨ term.2 ≠ 1
  · simp only [termSlot, termTree, termOperands, noneOccurs, if_pos needsCoefficient]
    have coefficientBuilt := num_built factorsBuilt.invariant term.2
    have operandsBuilt := insertFirst_built factorsBuilt coefficientBuilt
    exact several_built operandsBuilt operandsBuilt.mul
  · simp only [termSlot, termTree, termOperands, noneOccurs, if_neg needsCoefficient]
    exact several_built factorsBuilt factorsBuilt.mul

/-- The terms are built in order. -/
theorem termSlots_built
    {store : AtomStore}
    (invariant : store.Invariant)
    (terms : List (Term numVars ℚ)) :
    BuiltAll store (termSlots vars store terms) (terms.map (termTree vars)) := by
  induction terms generalizing store with
  | nil =>
      exact builtAll_nil invariant
  | cons term rest inductionHypothesis =>
      have termBuilt := termSlot_built vars invariant term
      exact termBuilt.cons (inductionHypothesis termBuilt.invariant)

variable {vars}

/-- `polynomial_to_atom` delivers a slot of the tree. -/
theorem polynomialToAtom_built
    {store : AtomStore}
    (invariant : store.Invariant)
    (polynomial : MachinePolynomial vars ℚ) :
    Built store (polynomialToAtom polynomial store) (polynomialTree polynomial) := by
  by_cases isZero : polynomial.isZero
  · simp only [polynomialToAtom, polynomialTree, if_pos isZero]
    exact num_built invariant 0
  · simp only [polynomialToAtom, polynomialTree, if_neg isZero]
    have termsBuilt := termSlots_built vars invariant polynomial.terms
    exact several_built termsBuilt termsBuilt.add

/-- `rational_polynomial_to_atom` delivers a slot of the tree. -/
theorem rationalPolynomialToAtom_built
    {store : AtomStore}
    (invariant : store.Invariant)
    (polynomial : RationalPolynomial vars) :
    Built store (rationalPolynomialToAtom polynomial store)
      (rationalPolynomialTree polynomial) := by
  have numeratorBuilt := polynomialToAtom_built invariant polynomial.numerator
  by_cases isOne : denominatorIsOne polynomial.denominator
  · simp only [rationalPolynomialToAtom, rationalPolynomialTree, if_pos isOne]
    exact numeratorBuilt
  · simp only [rationalPolynomialToAtom, rationalPolynomialTree, if_neg isOne]
    have denominatorBuilt :=
      polynomialToAtom_built numeratorBuilt.invariant polynomial.denominator
    have minusOneBuilt := num_built denominatorBuilt.invariant (-1)
    have inverseBuilt := denominatorBuilt.pow minusOneBuilt
    have operandsBuilt :=
      numeratorBuilt.cons
        (inverseBuilt.cons (builtAll_nil inverseBuilt.invariant))
    exact operandsBuilt.mul

end Refinement

end PolyCore
