import Stocas.Poly.PolynomialAtomForm
import Stocas.Poly.RationalPolynomialValue

namespace PolyCore

open AtomCore (AtomStore AtomTree StringHash)
open AtomCore.AtomStore (Built normalize_built)
open AtomCore.AtomTree (flattenOperands flattenOperands_eq_self mkAdd mkMul normal_mkMul
  normal_pow_iff normal_of_perm operandsOf products splitPower)
open SymbolTable (Symbol)

/-!
# When the written quotient is in normal form

The inverse of the denominator is one more factor of the numerator's product.  A numerator
1 is a factor that the normalizer drops.
-/

variable {numVars : ℕ} {vars : Fin numVars → Symbol}

/-- The coefficients and powers of symbols of some terms. -/
def termImages
    (vars : Fin numVars → Symbol)
    (terms : List (Term numVars ℚ)) :
    Multiset Image :=
  (terms.map fun term => (term.2, .ofAdd (variablePowers vars term.1)) : List Image)

/-- The coefficients and powers of symbols of the terms of a sum. -/
def readTerms : AtomTree → Multiset Image
  | .add terms => (terms.map readTerm : List Image)
  | term => {readTerm term}

/-- Reading the tree of a polynomial gives its terms. -/
theorem readTerms_polynomialTree
    {polynomial : MachinePolynomial vars ℚ}
    (isNonzero : polynomial.isZero = false) :
    readTerms (polynomialTree polynomial) = termImages vars polynomial.terms := by
  have images :
      termImages vars polynomial.terms =
        ((polynomial.terms.map (termTree vars)).map readTerm : List Image) := by
    rw [termImages, List.map_map]
    refine congrArg _ (List.map_congr_left fun term _ => ?_)
    exact (readTerm_termTree term).symm
  rcases polynomialTree_cases isNonzero with
    ⟨term, isSingle, tree_eq⟩ | ⟨-, tree_eq⟩
  · have notSum := @tag_termTree _ vars term
    rw [images, isSingle, tree_eq, readTerms.eq_def]
    split
    · rename_i same
      rw [same] at notSum
      exact absurd rfl notSum
    · rfl
  · have permuted :=
      AtomTree.perm_variadicChildren .add (polynomial.terms.map (termTree vars))
    rw [flatten_termTrees] at permuted
    rw [images, tree_eq]
    exact Multiset.coe_eq_coe.mpr (permuted.map readTerm)

/-- Polynomials that are not zero have the same tree when their terms look the same. -/
theorem polynomialTree_eq_iff
    {left right : MachinePolynomial vars ℚ}
    (leftNonzero : left.isZero = false)
    (rightNonzero : right.isZero = false) :
    polynomialTree left = polynomialTree right ↔
      termImages vars left.terms = termImages vars right.terms := by
  constructor
  · intro same
    rw [← readTerms_polynomialTree leftNonzero, same, readTerms_polynomialTree rightNonzero]
  · intro same
    have permuted := Multiset.coe_eq_coe.mp same
    -- The tree of a term depends on its image only.
    have treeOfImage :
        (termTree vars).FactorsThrough fun term =>
          ((term.2, .ofAdd (variablePowers vars term.1)) : Image) := by
      intro one other sameImage
      rw [Prod.mk.injEq] at sameImage
      exact termTree_eq_iff.mpr sameImage
    have treesPermuted :
        (left.terms.map (termTree vars)).Perm (right.terms.map (termTree vars)) := by
      have mapped := permuted.map
        (Function.extend (fun term =>
          ((term.2, .ofAdd (variablePowers vars term.1)) : Image)) (termTree vars)
          fun _ => .num 0)
      rw [List.map_map, List.map_map, treeOfImage.extend_comp] at mapped
      exact mapped
    rw [polynomialTree, polynomialTree, if_neg (Bool.eq_false_iff.mp leftNonzero),
      if_neg (Bool.eq_false_iff.mp rightNonzero)]
    refine unlessSingle_perm treesPermuted ?_
    exact congrArg AtomTree.add
      (AtomTree.variadicChildren_congr (treesPermuted.flatMap_right _))

/-- A polynomial that looks like a symbol is written as a variable. -/
theorem polynomialTree_eq_var_iff
    {polynomial : MachinePolynomial vars ℚ}
    (isNonzero : polynomial.isZero = false)
    (symbol : Symbol) :
    polynomialTree polynomial = .var symbol ↔
      termImages vars polynomial.terms = {(1, .ofAdd {(symbol, 1)})} := by
  constructor
  · intro same
    rw [← readTerms_polynomialTree isNonzero, same]
    rfl
  · intro looksLike
    obtain ⟨term, isSingle, image⟩ :=
      List.map_eq_singleton_iff.mp (Multiset.coe_eq_singleton.mp looksLike)
    rw [Prod.mk.injEq] at image
    have powers :
        (occurring term.1).map (fun index => (vars index, term.1.exponent index)) =
          [(symbol, 1)] :=
      Multiset.coe_eq_singleton.mp image.2
    have occurs : occurring term.1 ≠ [] := by
      intro isNil
      rw [isNil] at powers
      cases powers
    have operands : termOperands vars term = [.var symbol] := by
      rw [termOperands_eq, writtenCoefficient, if_neg (by simp [occurs, image.1]),
        monomialTrees_eq_map, powers]
      rfl
    rw [polynomialTree, if_neg (Bool.eq_false_iff.mp isNonzero), isSingle, List.map_singleton,
      termTree, operands]
    rfl

/-- The inverse of the denominator is collected with a factor of the numerator. -/
def Merges (numerator denominator : MachinePolynomial vars ℚ) : Prop :=
  (∃ term,
    numerator.terms = [term] ∧
    ∃ index ∈ occurring term.1,
      termImages vars denominator.terms = {(1, .ofAdd {(vars index, 1)})}) ∨
    2 ≤ numerator.terms.length ∧
      termImages vars numerator.terms = termImages vars denominator.terms

/-- The condition under which a quotient is written in normal form. -/
def WrittenNormal (polynomial : RationalPolynomial vars) : Prop :=
  TermsApart vars polynomial.numerator.terms ∧
    (denominatorIsOne polynomial.denominator = true ∨
      TermsApart vars polynomial.denominator.terms ∧
      polynomial.numerator ≠ .constant 1 ∧
      ¬Merges polynomial.numerator polynomial.denominator)

/-- The factor that divides by the denominator. -/
def inverseTree (denominator : MachinePolynomial vars ℚ) : AtomTree :=
  .pow (polynomialTree denominator) (.num (-1))

theorem keptFactor_inverseTree (denominator : MachinePolynomial vars ℚ) :
    KeptFactor (inverseTree denominator) where
  symbolic := rfl
  unit := by
    intro isOne
    have isOne : (-1 : ℚ) = 1 := isOne
    norm_num at isOne
  amount := by
    have isAmount : (splitPower (inverseTree denominator)).2 = -1 := rfl
    rw [isAmount]
    norm_num

theorem normal_inverseTree_iff (denominator : MachinePolynomial vars ℚ) :
    (inverseTree denominator).Normal ↔ TermsApart vars denominator.terms := by
  have numberNormal : (AtomTree.num (-1)).Normal := .num (-1)
  rw [inverseTree, normal_pow_iff (by norm_num) (by norm_num), normal_polynomialTree_iff]
  exact and_iff_left numberNormal

/-- A product with the inverse is normal when its spliced operands are and are collected. -/
theorem normal_mkMul_inverse_iff
    {tree : AtomTree}
    {operands : List AtomTree}
    (splices : (operandsOf .mul tree).Perm operands)
    (denominator : MachinePolynomial vars ℚ) :
    (mkMul [tree, inverseTree denominator]).Normal ↔
      ((∀ operand ∈ operands, operand.Normal) ∧ TermsApart vars denominator.terms) ∧
        products.Separate (operands ++ [inverseTree denominator]) := by
  have flat :
      flattenOperands .mul [tree, inverseTree denominator] =
        operandsOf .mul tree ++ [inverseTree denominator] := rfl
  rw [normal_mkMul, flat, normal_of_perm (splices.append_right _), ← normal_inverseTree_iff]
  simp only [List.forall_mem_append, List.forall_mem_singleton]

/-- The constant 1 has one term. -/
theorem eq_constant_one_iff
    {polynomial : MachinePolynomial vars ℚ} :
    polynomial = .constant 1 ↔ polynomial.terms = [(1, 1)] := by
  have oneTerms : (.constant 1 : MachinePolynomial vars ℚ).terms = [(1, 1)] :=
    MultivariatePolynomial.terms_fromTerm one_ne_zero
  constructor
  · intro same
    rw [same, oneTerms]
  · intro same
    refine MachinePolynomial.ext_polynomial (MultivariatePolynomial.toMvPolynomial_injective ?_)
    rw [MultivariatePolynomial.toMvPolynomial, MultivariatePolynomial.toMvPolynomial, same,
      oneTerms]

/-- One term over a denominator. -/
theorem normal_single_iff
    {numerator denominator : MachinePolynomial vars ℚ}
    {term : Term numVars ℚ}
    (isSingle : numerator.terms = [term])
    (tree_eq : polynomialTree numerator = termTree vars term)
    (isNonzero : denominator.isZero = false) :
    (mkMul [polynomialTree numerator, inverseTree denominator]).Normal ↔
      TermsApart vars numerator.terms ∧ TermsApart vars denominator.terms ∧
      numerator ≠ .constant 1 ∧ ¬Merges numerator denominator := by
  have coefficientNonzero : term.2 ≠ 0 := numerator.nonzero term (by simp [isSingle])
  have kept : ∀ other ∈ [inverseTree denominator], KeptFactor other := by
    intro other member
    rw [List.mem_singleton.mp member]
    exact keptFactor_inverseTree denominator
  have several : 2 ≤ (termOperands vars term ++ [inverseTree denominator]).length := by
    have positive := List.length_pos_iff.mpr (termOperands_ne_nil vars term)
    rw [List.length_append, List.length_singleton]
    omega
  have notOne : numerator ≠ .constant 1 ↔ (occurring term.1 = [] → term.2 ≠ 1) := by
    rw [Ne, eq_constant_one_iff, isSingle, List.cons.injEq, and_iff_left rfl, Prod.ext_iff,
      not_and, ← occurring_eq_nil_iff]
  have merges :
      polynomialTree denominator ∉ ((occurring term.1).map vars).map AtomTree.var ↔
        ¬Merges numerator denominator := by
    refine not_congr ?_
    simp only [List.mem_map, exists_exists_and_eq_and]
    constructor
    · rintro ⟨index, occurs, same⟩
      exact Or.inl ⟨term, isSingle, index, occurs,
        (polynomialTree_eq_var_iff isNonzero (vars index)).mp same.symm⟩
    · rintro (⟨other, otherSingle, index, occurs, looksLike⟩ | ⟨long, -⟩)
      · rw [isSingle, List.cons.injEq] at otherSingle
        rw [otherSingle.1]
        exact ⟨index, occurs,
          ((polynomialTree_eq_var_iff isNonzero (vars index)).mpr looksLike).symm⟩
      · rw [isSingle, List.length_singleton] at long
        omega
  have keys :
      (((occurring term.1).map vars).map AtomTree.var ++
          [inverseTree denominator].map fun other => (splitPower other).1).Nodup ↔
        ¬Merges numerator denominator ∧ TermsApart vars numerator.terms := by
    rw [List.map_singleton, (List.perm_append_singleton _ _).nodup_iff, List.nodup_cons,
      List.nodup_map_iff fun _ _ => AtomTree.var.inj, isSingle, termsApart_singleton_iff,
      ← merges]
    rfl
  rw [tree_eq, normal_mkMul_inverse_iff (perm_operandsOf_termTree term),
    separate_termOperands_iff vars coefficientNonzero kept several, keys, ← notOne]
  constructor
  · rintro ⟨⟨-, denominatorApart⟩, ⟨noMerge, numeratorApart⟩, isNotOne⟩
    exact ⟨numeratorApart, denominatorApart, isNotOne, noMerge⟩
  · rintro ⟨numeratorApart, denominatorApart, isNotOne, noMerge⟩
    exact ⟨⟨fun _ member => normal_termOperands member, denominatorApart⟩,
      ⟨noMerge, numeratorApart⟩, isNotOne⟩

/-- Several terms over a denominator. -/
theorem normal_several_iff
    {numerator denominator : MachinePolynomial vars ℚ}
    (several : 2 ≤ numerator.terms.length)
    (tree_eq : polynomialTree numerator = mkAdd (numerator.terms.map (termTree vars)))
    (numeratorNonzero : numerator.isZero = false)
    (denominatorNonzero : denominator.isZero = false) :
    (mkMul [polynomialTree numerator, inverseTree denominator]).Normal ↔
      TermsApart vars numerator.terms ∧ TermsApart vars denominator.terms ∧
      numerator ≠ .constant 1 ∧ ¬Merges numerator denominator := by
  have notOne : numerator ≠ .constant 1 := by
    rw [Ne, eq_constant_one_iff]
    intro same
    rw [same, List.length_singleton] at several
    omega
  have merges :
      polynomialTree numerator ≠ polynomialTree denominator ↔
        ¬Merges numerator denominator := by
    refine not_congr ?_
    rw [polynomialTree_eq_iff numeratorNonzero denominatorNonzero]
    constructor
    · intro same
      exact Or.inr ⟨several, same⟩
    · rintro (⟨term, isSingle, -⟩ | ⟨-, same⟩)
      · rw [isSingle, List.length_singleton] at several
        omega
      · exact same
  have splices :
      (operandsOf .mul (polynomialTree numerator)).Perm [polynomialTree numerator] := by
    rw [tree_eq]
    exact List.Perm.refl _
  have kept :
      ∀ factor ∈ [polynomialTree numerator, inverseTree denominator], KeptFactor factor := by
    intro factor member
    simp only [List.mem_cons, List.not_mem_nil, or_false] at member
    rcases member with rfl | rfl
    · rw [tree_eq]
      exact ⟨rfl, fun _ => rfl, one_ne_zero⟩
    · exact keptFactor_inverseTree denominator
  have base : (splitPower (polynomialTree numerator)).1 = polynomialTree numerator := by
    rw [tree_eq]
    rfl
  have separate :
      products.Separate ([polynomialTree numerator] ++ [inverseTree denominator]) ↔
        polynomialTree numerator ≠ polynomialTree denominator := by
    refine (@separate_products_iff [] _ kept (by simp)).trans ?_
    have inverseBase :
        (splitPower (inverseTree denominator)).1 = polynomialTree denominator := rfl
    simp [base, inverseBase]
  rw [normal_mkMul_inverse_iff splices, separate, merges, List.forall_mem_singleton,
    normal_polynomialTree_iff]
  constructor
  · rintro ⟨⟨numeratorApart, denominatorApart⟩, noMerge⟩
    exact ⟨numeratorApart, denominatorApart, notOne, noMerge⟩
  · rintro ⟨numeratorApart, denominatorApart, -, noMerge⟩
    exact ⟨⟨numeratorApart, denominatorApart⟩, noMerge⟩

/-- The constant 1 passes the test for denominator 1. -/
theorem denominatorIsOne_constant_one :
    denominatorIsOne (.constant 1 : MachinePolynomial vars ℚ) = true := by
  have oneTerms : (.constant 1 : MachinePolynomial vars ℚ).terms = [(1, 1)] :=
    MultivariatePolynomial.terms_fromTerm one_ne_zero
  rw [denominatorIsOne, oneTerms]
  simp [Monomial.totalDegree_eq]

/-- A denominator that divides its numerator is the constant 1. -/
theorem denominator_eq_one
    {polynomial : RationalPolynomial vars}
    (divides : polynomial.denominator.toMvPolynomial ∣ polynomial.numerator.toMvPolynomial) :
    polynomial.denominator = .constant 1 := by
  have isUnit := polynomial.lowest.coprime divides (dvd_refl _)
  have denotesOne : polynomial.denominator.toMvPolynomial = 1 :=
    eq_of_monic_of_dvd polynomial.lowest.monic MonomialOrder.monic_one isUnit.dvd
      (one_dvd _)
  refine MachinePolynomial.ext_polynomial (MultivariatePolynomial.toMvPolynomial_injective ?_)
  rw [denotesOne, MachinePolynomial.toMvPolynomial_constant, map_one]

/-- A denominator that is kept does not divide its numerator. -/
theorem not_dvd_numerator
    {polynomial : RationalPolynomial vars}
    (notOne : ¬denominatorIsOne polynomial.denominator = true) :
    ¬polynomial.denominator.toMvPolynomial ∣ polynomial.numerator.toMvPolynomial := by
  intro divides
  exact notOne (denominator_eq_one divides ▸ denominatorIsOne_constant_one)

/-- A quotient is written in normal form exactly under the condition. -/
theorem normal_rationalPolynomialTree_iff
    (polynomial : RationalPolynomial vars) :
    (rationalPolynomialTree polynomial).Normal ↔ WrittenNormal polynomial := by
  rw [rationalPolynomialTree, WrittenNormal]
  split
  · rename_i isOne
    rw [normal_polynomialTree_iff]
    exact (and_iff_left (Or.inl isOne)).symm
  · rename_i notOne
    have denominatorNonzero : polynomial.denominator.isZero = false := by
      rw [Bool.eq_false_iff, Ne, MultivariatePolynomial.isZero_iff]
      exact polynomial.denominator_ne_zero
    have numeratorNonzero : polynomial.numerator.isZero = false := by
      rw [Bool.eq_false_iff, Ne, MultivariatePolynomial.isZero_iff]
      intro isZero
      exact not_dvd_numerator notOne (isZero ▸ dvd_zero _)
    rw [or_iff_right notOne]
    rcases polynomialTree_cases numeratorNonzero with
      ⟨term, isSingle, tree_eq⟩ | ⟨several, tree_eq⟩
    · exact normal_single_iff isSingle tree_eq denominatorNonzero
    · exact normal_several_iff several tree_eq numeratorNonzero denominatorNonzero

/-- A power of a symbol in a monomial is the power of its variable. -/
theorem mem_variablePowers_iff
    (distinct : Function.Injective vars)
    {monomial : Monomial numVars}
    {index : Fin numVars}
    {exponent : ℕ} :
    (vars index, exponent) ∈ variablePowers vars monomial ↔
      monomial.exponent index = exponent ∧ exponent ≠ 0 := by
  rw [variablePowers, Multiset.mem_coe, List.mem_map]
  constructor
  · rintro ⟨other, occurs, same⟩
    rw [Prod.mk.injEq] at same
    rw [← distinct same.1, ← same.2]
    exact ⟨rfl, mem_occurring.mp occurs⟩
  · rintro ⟨rfl, isNonzero⟩
    exact ⟨index, mem_occurring.mpr isNonzero, rfl⟩

/-- Distinct variables tell monomials apart. -/
theorem variablePowers_injective
    (distinct : Function.Injective vars) :
    Function.Injective (variablePowers vars) := by
  have transfers :
      ∀ {left right : Monomial numVars},
        variablePowers vars left = variablePowers vars right →
        ∀ index, left.exponent index ≠ 0 →
        right.exponent index = left.exponent index := by
    intro left right same index isNonzero
    have member := (mem_variablePowers_iff distinct).mpr
      (⟨rfl, isNonzero⟩ : left.exponent index = _ ∧ left.exponent index ≠ 0)
    rw [same] at member
    exact ((mem_variablePowers_iff distinct).mp member).1
  intro left right same
  ext index
  by_cases leftZero : left.exponent index = 0
  · by_contra differ
    have rightNonzero : right.exponent index ≠ 0 := by
      intro rightZero
      exact differ (leftZero.trans rightZero.symm)
    exact differ (transfers same.symm index rightNonzero)
  · exact (transfers same index leftZero).symm

/-- Over distinct variables the terms of a polynomial are apart. -/
theorem termsApart_of_injective
    (distinct : Function.Injective vars)
    (polynomial : MachinePolynomial vars ℚ) :
    TermsApart vars polynomial.terms where
  symbols := by
    intro term _
    exact ((List.nodup_finRange numVars).filter _).map distinct
  apart := by
    refine polynomial.descending.imp ?_
    intro left right lower collide
    exact ne_of_lt lower (variablePowers_injective distinct collide.1).symm

/-- Over distinct variables the denominator is not collected with the numerator. -/
theorem not_merges_of_injective
    (distinct : Function.Injective vars)
    {polynomial : RationalPolynomial vars}
    (notOne : ¬denominatorIsOne polynomial.denominator = true) :
    ¬Merges polynomial.numerator polynomial.denominator := by
  refine fun merges => not_dvd_numerator notOne ?_
  rcases merges with ⟨term, isSingle, index, occurs, looksLike⟩ | ⟨-, same⟩
  · obtain ⟨other, otherSingle, image⟩ :=
      List.map_eq_singleton_iff.mp (Multiset.coe_eq_singleton.mp looksLike)
    rw [Prod.mk.injEq] at image
    have powers : variablePowers vars other.1 = {(vars index, 1)} := image.2
    have divides : other.1.Divides term.1 := by
      intro place
      by_cases isZero : other.1.exponent place = 0
      · rw [isZero]
        exact Nat.zero_le _
      · have member := (mem_variablePowers_iff distinct).mpr
          (⟨rfl, isZero⟩ : other.1.exponent place = _ ∧ other.1.exponent place ≠ 0)
        rw [powers, Multiset.mem_singleton, Prod.mk.injEq] at member
        rw [member.2, distinct member.1]
        exact Nat.one_le_iff_ne_zero.mpr (mem_occurring.mp occurs)
    rw [MultivariatePolynomial.toMvPolynomial, MultivariatePolynomial.toMvPolynomial, isSingle,
      otherSingle]
    simp only [MultivariatePolynomial.termsValue_cons, MultivariatePolynomial.termsValue_nil,
      add_zero]
    rw [MvPolynomial.monomial_dvd_monomial, image.1]
    refine ⟨Or.inr ?_, one_dvd _⟩
    intro place
    rw [Monomial.toFinsupp_apply, Monomial.toFinsupp_apply]
    exact divides place
  · have imageInjective :
        Function.Injective fun term : Term numVars ℚ =>
          ((term.2, .ofAdd (variablePowers vars term.1)) : Image) := by
      intro left right sameImage
      rw [Prod.mk.injEq] at sameImage
      exact Prod.ext (variablePowers_injective distinct sameImage.2) sameImage.1
    have permuted :=
      (List.map_perm_map_iff imageInjective).mp (Multiset.coe_eq_coe.mp same)
    have sameValue :
        polynomial.numerator.toMvPolynomial = polynomial.denominator.toMvPolynomial :=
      MultivariatePolynomial.termsValue_perm permuted
    exact dvd_of_eq sameValue.symm

/--
Over distinct variables, only a numerator 1 over a denominator that is kept needs the
normalizer.
-/
theorem writtenNormal_iff_of_injective
    (distinct : Function.Injective vars)
    (polynomial : RationalPolynomial vars) :
    WrittenNormal polynomial ↔
      denominatorIsOne polynomial.denominator = true ∨ polynomial.numerator ≠ .constant 1 := by
  rw [WrittenNormal, and_iff_right (termsApart_of_injective distinct _),
    and_iff_right (termsApart_of_injective distinct _)]
  by_cases isOne : denominatorIsOne polynomial.denominator = true
  · simp [isOne]
  · simp [isOne, not_merges_of_injective distinct isOne]

/-- A constant over a monomial. -/
def RationalPolynomial.overMonomial
    (vars : Fin numVars → Symbol)
    (value : ℚ)
    (nonzero : value ≠ 0)
    (monomial : Monomial numVars)
    (fits : monomial.Fits) :
    RationalPolynomial vars where
  numerator := .constant value
  denominator := .fromTerm monomial fits 1
  lowest := by
    refine ⟨?_, ?_⟩
    · rw [MachinePolynomial.toMvPolynomial_constant]
      exact (nonzero.isUnit.map MvPolynomial.C).isRelPrime_left
    · have denotes :
          (MachinePolynomial.fromTerm monomial fits 1 :
              MachinePolynomial vars ℚ).toMvPolynomial =
            MvPolynomial.monomial monomial.toFinsupp 1 :=
        MultivariatePolynomial.toMvPolynomial_fromTerm _ _
      rw [denotes]
      exact MonomialOrder.monic_monomial_one

/-- The denominator is dropped exactly when its total degree is 0. -/
theorem denominatorIsOne_overMonomial_iff
    {value : ℚ}
    (nonzero : value ≠ 0)
    {monomial : Monomial numVars}
    (fits : monomial.Fits) :
    denominatorIsOne
          (RationalPolynomial.overMonomial vars value nonzero monomial fits).denominator =
        true ↔
      monomial.totalDegree = 0 := by
  have terms :
      (RationalPolynomial.overMonomial vars value nonzero monomial fits).denominator.terms =
        [(monomial, 1)] :=
    MultivariatePolynomial.terms_fromTerm one_ne_zero
  rw [denominatorIsOne, terms]
  simp

/--
In every reachable arena, the atom of a quotient is normalized to its own slot exactly
when it is written in normal form.
-/
theorem normalize_rationalPolynomialToAtom_iff
    [StringHash]
    {store : AtomStore}
    (reachable : store.Reachable)
    (polynomial : RationalPolynomial vars) :
    let built := rationalPolynomialToAtom polynomial store
    (built.2.normalize built.1).1 = built.1 ↔ WrittenNormal polynomial := by
  intro built
  rw [← normal_rationalPolynomialTree_iff]
  exact (rationalPolynomialToAtom_built reachable.invariant polynomial).normalize_eq_iff

/-- `2/x` is left as it is. -/
theorem normalize_two_over_variable :
    let constant : StringHash := ⟨fun _ => 0⟩
    let polynomial : RationalPolynomial (fun _ : Fin 1 => (⟨0⟩ : Symbol)) :=
      .overMonomial _ 2 two_ne_zero (Monomial.single 0 1) (by decide +kernel)
    let built := @rationalPolynomialToAtom _ constant _ polynomial .empty
    (@AtomStore.normalize constant built.2 built.1).1 = built.1 := by
  intro constant polynomial built
  refine (@normalize_rationalPolynomialToAtom_iff _ _ constant .empty
    ⟨[], Transition.everyStep_nil, rfl⟩ polynomial).mpr ?_
  refine (writtenNormal_iff_of_injective (Function.injective_of_subsingleton _) _).mpr
    (Or.inr ?_)
  rw [Ne, eq_constant_one_iff]
  decide +kernel

/-- `1/x` is written as `1*x^(-1)`, and normalized to `x^(-1)`. -/
theorem normalize_one_over_variable :
    let constant : StringHash := ⟨fun _ => 0⟩
    let polynomial : RationalPolynomial (fun _ : Fin 1 => (⟨0⟩ : Symbol)) :=
      .overMonomial _ 1 one_ne_zero (Monomial.single 0 1) (by decide +kernel)
    let built := @rationalPolynomialToAtom _ constant _ polynomial .empty
    @AtomStore.Reachable constant .empty ∧
      (@AtomStore.normalize constant built.2 built.1).1 ≠ built.1 := by
  intro constant polynomial built
  have start : @AtomStore.Reachable constant .empty := ⟨[], Transition.everyStep_nil, rfl⟩
  have written :=
    @rationalPolynomialToAtom_built _ constant _ _ start.invariant polynomial
  refine ⟨start, ?_⟩
  rw [Ne, written.normalize_eq_iff, normal_rationalPolynomialTree_iff,
    writtenNormal_iff_of_injective (Function.injective_of_subsingleton _),
    denominatorIsOne_overMonomial_iff]
  rintro (isZero | notOne)
  · revert isZero
    decide +kernel
  · exact notOne rfl

end PolyCore
