import Mathlib.Algebra.MvPolynomial.Equiv
import Stocas.Poly.Denotation

namespace PolyCore

open SymbolTable (Symbol)

/-!
# What the operations on one variable denote

Evaluation is the substitution of a value.  Seen as a polynomial in the main
variable, a polynomial has the coefficients that the source collects, and its
leading coefficient is the one that the source takes.
-/

namespace MultivariatePolynomial

variable {numVars : ℕ} {K : Type} [CommRing K] [DecidableEq K]

/-- Substitution of a value for one variable. -/
noncomputable def substitute
    (varIndex : Fin numVars)
    (value : K) :
    MvPolynomial (Fin numVars) K →ₐ[K] MvPolynomial (Fin numVars) K :=
  MvPolynomial.aeval
    (fun index =>
      if index = varIndex then MvPolynomial.C value else MvPolynomial.X index)

omit [DecidableEq K] in
/-- Substituting in a monomial folds the value's power into the coefficient. -/
theorem substitute_monomial
    (varIndex : Fin numVars)
    (value : K)
    (monomial : Monomial numVars)
    (coefficient : K) :
    substitute varIndex value
        (MvPolynomial.monomial monomial.toFinsupp coefficient) =
      MvPolynomial.monomial (monomial.freeze varIndex).toFinsupp
        (coefficient * value ^ monomial.exponent varIndex) := by
  have factors
      (index : Fin numVars) :
      (if index = varIndex then MvPolynomial.C value else MvPolynomial.X index :
          MvPolynomial (Fin numVars) K) ^ monomial.exponent index =
        (if index = varIndex then
            MvPolynomial.C (value ^ monomial.exponent varIndex)
          else 1) *
          MvPolynomial.X index ^ (monomial.freeze varIndex).exponent index := by
    by_cases same : index = varIndex
    · subst index
      simp [Monomial.freeze]
    · simp [Monomial.freeze, same]
  rw [substitute, MvPolynomial.aeval_monomial, MvPolynomial.monomial_eq,
    Finsupp.prod_fintype _ _ (fun _ => pow_zero _),
    Finsupp.prod_fintype _ _ (fun _ => pow_zero _)]
  simp only [Monomial.toFinsupp_apply, factors, Finset.prod_mul_distrib,
    Finset.prod_ite_eq', Finset.mem_univ, if_true, map_mul,
    MvPolynomial.algebraMap_eq]
  ring

/-- `evaluate` substitutes the value. -/
@[simp] theorem toMvPolynomial_evaluate
    {vars : Fin numVars → Symbol}
    (poly : MultivariatePolynomial vars K)
    (varIndex : Fin numVars)
    (value : K) :
    (poly.evaluate varIndex value).toMvPolynomial =
      substitute varIndex value poly.toMvPolynomial := by
  rw [evaluate, toMvPolynomial_ofRaw, toMvPolynomial]
  induction poly.terms with
  | nil =>
      simp
  | cons first rest inductionHypothesis =>
      simp only [coeffPow_eq] at inductionHypothesis ⊢
      simp [inductionHypothesis, substitute_monomial]

/-- A polynomial as a polynomial in its first variable. -/
noncomputable def inMain
    {vars : Fin (numVars + 1) → Symbol}
    (poly : MultivariatePolynomial vars K) :
    Polynomial (MvPolynomial (Fin numVars) K) :=
  MvPolynomial.finSuccEquiv K numVars poly.toMvPolynomial

omit [DecidableEq K] in
/-- A monomial is a power of the main variable times the rest. -/
theorem finSuccEquiv_monomial
    (monomial : Monomial (numVars + 1))
    (coefficient : K) :
    MvPolynomial.finSuccEquiv K numVars
        (MvPolynomial.monomial monomial.toFinsupp coefficient) =
      Polynomial.monomial (monomial.exponent 0)
        (MvPolynomial.monomial (monomial.removeVariable 0).toFinsupp coefficient) := by
  have split : monomial.toFinsupp =
      (monomial.removeVariable 0).toFinsupp.cons (monomial.exponent 0) := by
    ext index
    refine Fin.cases ?_ (fun later => ?_) index
    · rfl
    · rfl
  ext exponent exponents
  rw [MvPolynomial.finSuccEquiv_coeff_coeff, split]
  by_cases same : monomial.exponent 0 = exponent
  · subst exponent
    simp [MvPolynomial.coeff_monomial, (Finsupp.cons_right_injective _).eq_iff]
  · have different :
        (monomial.removeVariable 0).toFinsupp.cons (monomial.exponent 0) ≠
          exponents.cons exponent := by
      intro equal
      exact same (by simpa using DFunLike.congr_fun equal 0)
    simp [MvPolynomial.coeff_monomial, Polynomial.coeff_monomial, same, different]

omit [DecidableEq K] in
/-- Substituting for another variable substitutes in every coefficient. -/
theorem finSuccEquiv_substitute
    (varIndex : Fin numVars)
    (value : K)
    (poly : MvPolynomial (Fin (numVars + 1)) K) :
    MvPolynomial.finSuccEquiv K numVars (substitute varIndex.succ value poly) =
      (MvPolynomial.finSuccEquiv K numVars poly).map
        (substitute varIndex value).toRingHom := by
  have agree :
      (MvPolynomial.finSuccEquiv K numVars).toAlgHom.comp
          (substitute varIndex.succ value) =
        (Polynomial.mapAlgHom (substitute varIndex value)).comp
          (MvPolynomial.finSuccEquiv K numVars).toAlgHom := by
    apply MvPolynomial.algHom_ext
    intro index
    refine Fin.cases ?_ (fun later => ?_) index
    · simp [substitute, (Fin.succ_ne_zero varIndex).symm,
        MvPolynomial.finSuccEquiv_X_zero]
    · by_cases same : later = varIndex
      · subst later
        simp [substitute, MvPolynomial.finSuccEquiv_apply]
      · simp [substitute, MvPolynomial.finSuccEquiv_X_succ, same]
  exact DFunLike.congr_fun agree poly

omit [DecidableEq K] in
/-- The coefficient of a power collects the terms with that power. -/
theorem coeff_finSuccEquiv_termsValue
    (terms : List (Term (numVars + 1) K))
    (exponent : ℕ) :
    (MvPolynomial.finSuccEquiv K numVars (termsValue terms)).coeff exponent =
      termsValue
        ((terms.filter (fun term => term.1.exponent 0 = exponent)).map
          (fun term => (term.1.removeVariable 0, term.2))) := by
  induction terms with
  | nil =>
      simp
  | cons first rest inductionHypothesis =>
      by_cases same : first.1.exponent 0 = exponent
      · simp [same, inductionHypothesis, finSuccEquiv_monomial]
      · simp [same, inductionHypothesis, finSuccEquiv_monomial,
          Polynomial.coeff_monomial]

/-- A running maximum is at least its start and every exponent. -/
theorem le_foldl_max
    {α : Type}
    (exponentOf : α → ℕ)
    (terms : List α)
    (start : ℕ) :
    start ≤ terms.foldl (fun high term => max high (exponentOf term)) start ∧
      ∀ term ∈ terms,
        exponentOf term ≤
          terms.foldl (fun high term => max high (exponentOf term)) start := by
  induction terms generalizing start with
  | nil =>
      simp
  | cons first rest inductionHypothesis =>
      have later := inductionHypothesis (max start (exponentOf first))
      have startSmaller : start ≤ max start (exponentOf first) := le_max_left _ _
      have firstSmaller : exponentOf first ≤ max start (exponentOf first) :=
        le_max_right _ _
      constructor
      · exact le_trans startSmaller later.1
      · intro term member
        rcases List.mem_cons.mp member with isFirst | inRest
        · rw [isFirst]
          exact le_trans firstSmaller later.1
        · exact later.2 term inRest

/-- A running maximum is its start or one of the exponents. -/
theorem foldl_max_attained
    {α : Type}
    (exponentOf : α → ℕ)
    (terms : List α)
    (start : ℕ) :
    terms.foldl (fun high term => max high (exponentOf term)) start = start ∨
      ∃ term ∈ terms,
        exponentOf term =
          terms.foldl (fun high term => max high (exponentOf term)) start := by
  induction terms generalizing start with
  | nil =>
      simp
  | cons first rest inductionHypothesis =>
      rcases inductionHypothesis (max start (exponentOf first)) with isStart | found
      · rw [List.foldl_cons, isStart]
        rcases max_choice start (exponentOf first) with isOld | isFirst
        · exact Or.inl isOld
        · exact Or.inr ⟨first, by simp, isFirst.symm⟩
      · obtain ⟨term, member, equal⟩ := found
        exact Or.inr ⟨term, by simp [member], equal⟩

omit [DecidableEq K] in
/-- A nonzero polynomial has a term of the greatest exponent. -/
theorem exists_degreeIn
    {vars : Fin numVars → Symbol}
    {poly : MultivariatePolynomial vars K}
    (isNonzero : poly.terms ≠ [])
    (varIndex : Fin numVars) :
    ∃ term ∈ poly.terms, term.1.exponent varIndex = poly.degreeIn varIndex := by
  rcases foldl_max_attained (fun term => term.1.exponent varIndex) poly.terms 0
    with isStart | found
  · obtain ⟨term, member⟩ := List.exists_mem_of_ne_nil _ isNonzero
    have atMost :=
      (le_foldl_max (fun term => term.1.exponent varIndex) poly.terms 0).2 term member
    rw [isStart] at atMost
    refine ⟨term, member, ?_⟩
    rw [Nat.le_zero.mp atMost]
    exact isStart.symm
  · exact found

omit [DecidableEq K] in
/-- The source's leading coefficient is the coefficient of the greatest power. -/
theorem toMvPolynomial_leadingCoefficientIn
    {vars : Fin (numVars + 1) → Symbol}
    (poly : MultivariatePolynomial vars K) :
    (poly.leadingCoefficientIn 0).toMvPolynomial = poly.inMain.leadingCoeff := by
  by_cases isZero : poly.terms = []
  · simp [inMain, toMvPolynomial, leadingCoefficientIn, isZero]
  · have coefficient :
        poly.inMain.coeff (poly.degreeIn 0) =
          (poly.leadingCoefficientIn 0).toMvPolynomial :=
      coeff_finSuccEquiv_termsValue poly.terms (poly.degreeIn 0)
    have occurs : (poly.leadingCoefficientIn 0).toMvPolynomial ≠ 0 := by
      obtain ⟨term, member, attained⟩ := exists_degreeIn isZero 0
      rw [Ne, toMvPolynomial_eq_zero_iff]
      refine List.ne_nil_of_mem (a := (term.1.removeVariable 0, term.2)) ?_
      exact List.mem_map.mpr
        ⟨term, List.mem_filter.mpr ⟨member, decide_eq_true attained⟩, rfl⟩
    have bounded : poly.inMain.natDegree ≤ poly.degreeIn 0 := by
      rw [Polynomial.natDegree_le_iff_coeff_eq_zero]
      intro exponent exceeds
      have none :
          poly.terms.filter (fun term => term.1.exponent 0 = exponent) = [] := by
        rw [List.filter_eq_nil_iff]
        intro term member
        have atMost :=
          (le_foldl_max (fun term => term.1.exponent 0) poly.terms 0).2 term member
        have below : term.1.exponent 0 < exponent := lt_of_le_of_lt atMost exceeds
        simp [ne_of_lt below]
      exact (coeff_finSuccEquiv_termsValue poly.terms exponent).trans (by simp [none])
    have degree : poly.inMain.natDegree = poly.degreeIn 0 :=
      le_antisymm bounded (Polynomial.le_natDegree_of_ne_zero (coefficient ▸ occurs))
    rw [Polynomial.leadingCoeff, degree, coefficient]

/-- The polynomial in the main variable with the given coefficients. -/
noncomputable def groupsValue
    {vars : Fin numVars → Symbol}
    (groups : List (ℕ × MultivariatePolynomial vars K)) :
    Polynomial (MvPolynomial (Fin numVars) K) :=
  (groups.map
    (fun group => Polynomial.monomial group.1 group.2.toMvPolynomial)).sum

/-- Adding a term to its group adds it to the polynomial. -/
theorem groupsValue_addToGroup
    {vars : Fin numVars → Symbol}
    (exponent : ℕ)
    (termPoly : MultivariatePolynomial vars K)
    (groups : List (ℕ × MultivariatePolynomial vars K)) :
    groupsValue (addToGroup exponent termPoly groups) =
      groupsValue groups + Polynomial.monomial exponent termPoly.toMvPolynomial := by
  induction groups with
  | nil =>
      simp [groupsValue, addToGroup]
  | cons group rest inductionHypothesis =>
      simp only [groupsValue] at inductionHypothesis ⊢
      by_cases same : group.1 = exponent
      · rw [addToGroup, if_pos same]
        simp only [List.map_cons, List.sum_cons, toMvPolynomial_add, map_add, same]
        ring
      · simp only [addToGroup, if_neg same, List.map_cons, List.sum_cons,
          inductionHypothesis]
        ring

/-- Adding a term to its group keeps the exponents apart. -/
theorem nodup_addToGroup
    {vars : Fin numVars → Symbol}
    (exponent : ℕ)
    (termPoly : MultivariatePolynomial vars K)
    {groups : List (ℕ × MultivariatePolynomial vars K)}
    (apart : (groups.map Prod.fst).Nodup) :
    ((addToGroup exponent termPoly groups).map Prod.fst).Nodup ∧
      ∀ seen ∈ (addToGroup exponent termPoly groups).map Prod.fst,
        seen = exponent ∨ seen ∈ groups.map Prod.fst := by
  induction groups with
  | nil =>
      simp [addToGroup]
  | cons group rest inductionHypothesis =>
      rw [List.map_cons, List.nodup_cons] at apart
      by_cases same : group.1 = exponent
      · simp only [addToGroup, if_pos same, List.map_cons]
        exact ⟨List.nodup_cons.mpr apart, fun seen member => Or.inr member⟩
      · obtain ⟨restApart, restSeen⟩ := inductionHypothesis apart.2
        simp only [addToGroup, if_neg same, List.map_cons]
        refine ⟨List.nodup_cons.mpr ⟨?_, restApart⟩, ?_⟩
        · intro member
          rcases restSeen _ member with isNew | wasSeen
          · exact same isNew
          · exact apart.1 wasSeen
        · intro seen member
          rcases List.mem_cons.mp member with isGroup | inRest
          · exact Or.inr (by simp [isGroup])
          · exact (restSeen seen inRest).imp_right (List.mem_cons_of_mem _)

/-- Collecting the terms of a list one by one. -/
theorem foldl_addToGroup
    {vars : Fin (numVars + 1) → Symbol}
    (terms : List (Term (numVars + 1) K))
    {groups : List (ℕ × MultivariatePolynomial (Fin.removeNth 0 vars) K)}
    (apart : (groups.map Prod.fst).Nodup) :
    let collected :=
      terms.foldl
        (fun groups term =>
          addToGroup (term.1.exponent 0)
            (fromTerm (term.1.removeVariable 0) term.2) groups)
        groups
    (collected.map Prod.fst).Nodup ∧
      groupsValue collected =
        groupsValue groups + MvPolynomial.finSuccEquiv K numVars (termsValue terms) := by
  induction terms generalizing groups with
  | nil =>
      simpa using apart
  | cons first rest inductionHypothesis =>
      have added :=
        nodup_addToGroup (first.1.exponent 0)
          (fromTerm (first.1.removeVariable 0) first.2 :
            MultivariatePolynomial (Fin.removeNth 0 vars) K)
          apart
      obtain ⟨restApart, restValue⟩ := inductionHypothesis added.1
      refine ⟨restApart, restValue.trans ?_⟩
      rw [groupsValue_addToGroup, toMvPolynomial_fromTerm, termsValue_cons, map_add,
        finSuccEquiv_monomial, add_assoc]

/-- The collected coefficients are those of the polynomial, at distinct powers. -/
theorem coefficientPolys_spec
    {vars : Fin (numVars + 1) → Symbol}
    (poly : MultivariatePolynomial vars K) :
    ((poly.coefficientPolys 0).map Prod.fst).Nodup ∧
      groupsValue (poly.coefficientPolys 0) = poly.inMain := by
  obtain ⟨apart, value⟩ :=
    @foldl_addToGroup _ _ _ _ vars poly.terms [] List.nodup_nil
  exact ⟨apart, value.trans (by simp [groupsValue, inMain, toMvPolynomial])⟩

omit [DecidableEq K] in
/-- A power without a group has coefficient zero. -/
theorem coeff_groupsValue_of_notMem
    {vars : Fin numVars → Symbol}
    {groups : List (ℕ × MultivariatePolynomial vars K)}
    {exponent : ℕ}
    (absent : exponent ∉ groups.map Prod.fst) :
    (groupsValue groups).coeff exponent = 0 := by
  induction groups with
  | nil =>
      simp [groupsValue]
  | cons group rest inductionHypothesis =>
      simp only [List.map_cons, List.mem_cons, not_or] at absent
      have restCoefficient := inductionHypothesis absent.2
      simp only [groupsValue] at restCoefficient ⊢
      simp [Polynomial.coeff_monomial, restCoefficient, Ne.symm absent.1]

omit [DecidableEq K] in
/-- A group's polynomial is the coefficient at its power. -/
theorem coeff_groupsValue
    {vars : Fin numVars → Symbol}
    {groups : List (ℕ × MultivariatePolynomial vars K)}
    (apart : (groups.map Prod.fst).Nodup)
    {group : ℕ × MultivariatePolynomial vars K}
    (member : group ∈ groups) :
    (groupsValue groups).coeff group.1 = group.2.toMvPolynomial := by
  induction groups with
  | nil =>
      cases member
  | cons first rest inductionHypothesis =>
      rw [List.map_cons, List.nodup_cons] at apart
      have split :
          (groupsValue (first :: rest)).coeff group.1 =
            (Polynomial.monomial first.1 first.2.toMvPolynomial).coeff group.1 +
              (groupsValue rest).coeff group.1 := by
        simp [groupsValue]
      rcases List.mem_cons.mp member with isFirst | inRest
      · rw [split, isFirst, coeff_groupsValue_of_notMem apart.1]
        simp
      · have differ : first.1 ≠ group.1 := by
          intro same
          exact apart.1 (same ▸ List.mem_map_of_mem inRest)
        rw [split, inductionHypothesis apart.2 inRest, Polynomial.coeff_monomial,
          if_neg differ, zero_add]

/-- What divides the collected coefficients divides all coefficients. -/
theorem forall_dvd_coefficientPolys
    {vars : Fin (numVars + 1) → Symbol}
    {poly : MultivariatePolynomial vars K}
    {divisor : MvPolynomial (Fin numVars) K} :
    (∀ group ∈ poly.coefficientPolys 0, divisor ∣ group.2.toMvPolynomial) ↔
      ∀ exponent, divisor ∣ poly.inMain.coeff exponent := by
  obtain ⟨apart, value⟩ := coefficientPolys_spec poly
  rw [← value]
  constructor
  · intro dividesGroups exponent
    by_cases occurs : exponent ∈ (poly.coefficientPolys 0).map Prod.fst
    · obtain ⟨group, member, rfl⟩ := List.mem_map.mp occurs
      rw [coeff_groupsValue apart member]
      exact dividesGroups group member
    · rw [coeff_groupsValue_of_notMem occurs]
      exact dvd_zero divisor
  · intro dividesAll group member
    rw [← coeff_groupsValue apart member]
    exact dividesAll group.1

/-- A polynomial over the other variables becomes a constant in the main one. -/
theorem inMain_insertMissingVariable
    {vars : Fin (numVars + 1) → Symbol}
    (reducedPoly : MultivariatePolynomial (Fin.removeNth 0 vars) K) :
    (insertMissingVariable 0 reducedPoly : MultivariatePolynomial vars K).inMain =
      Polynomial.C reducedPoly.toMvPolynomial := by
  have accumulated
      (terms : List (Term numVars K))
      (start : MultivariatePolynomial vars K) :
      (terms.foldl
          (fun result term => result + fromTerm (term.1.insertVariable 0) term.2)
          start).inMain =
        start.inMain + Polynomial.C (termsValue terms) := by
    induction terms generalizing start with
    | nil =>
        simp
    | cons first rest inductionHypothesis =>
        have inserted :
            MvPolynomial.finSuccEquiv K numVars
                (MvPolynomial.monomial (first.1.insertVariable 0).toFinsupp first.2) =
              Polynomial.C (MvPolynomial.monomial first.1.toFinsupp first.2) := by
          rw [finSuccEquiv_monomial]
          rfl
        rw [List.foldl_cons, inductionHypothesis, termsValue_cons, map_add, ← add_assoc]
        simp [inMain, inserted]
  have startsZero : (0 : MultivariatePolynomial vars K).inMain = 0 := by
    simp [inMain]
  have inserted := accumulated reducedPoly.terms 0
  rw [startsZero, zero_add] at inserted
  exact inserted

theorem toFinsupp_single
    (varIndex : Fin numVars)
    (exponent : ℕ) :
    (Monomial.single varIndex exponent).toFinsupp =
      Finsupp.single varIndex exponent := by
  ext index
  simp [Monomial.single, Finsupp.single_apply, eq_comm]

omit [DecidableEq K] in
/-- Renaming the variable of a monomial keeps its exponent. -/
theorem rename_monomial
    (varIndex : Fin numVars)
    (term : Term 1 K) :
    MvPolynomial.rename (fun _ : Fin 1 => varIndex)
        (MvPolynomial.monomial term.1.toFinsupp term.2) =
      MvPolynomial.monomial
        (Monomial.single varIndex (term.1.exponent 0)).toFinsupp term.2 := by
  have isSingle : term.1 = Monomial.single 0 (term.1.exponent 0) := by
    ext index
    simp [Monomial.single, Subsingleton.elim index 0]
  have exponents : term.1.toFinsupp = Finsupp.single 0 (term.1.exponent 0) :=
    (congrArg Monomial.toFinsupp isSingle).trans (toFinsupp_single 0 _)
  rw [exponents, MvPolynomial.rename_monomial, Finsupp.mapDomain_single,
    toFinsupp_single]

omit [DecidableEq K] in
/-- Embedding a univariate polynomial renames its variable. -/
@[simp] theorem toMvPolynomial_embedUnivariate
    {single : Fin 1 → Symbol}
    {vars : Fin numVars → Symbol}
    (varIndex : Fin numVars)
    (univariate : MultivariatePolynomial single K) :
    (embedUnivariate varIndex univariate : MultivariatePolynomial vars K).toMvPolynomial =
      MvPolynomial.rename (fun _ => varIndex) univariate.toMvPolynomial := by
  simp only [embedUnivariate, toMvPolynomial]
  induction univariate.terms with
  | nil =>
      simp
  | cons first rest inductionHypothesis =>
      simp only [List.map_cons, termsValue_cons, map_add, inductionHypothesis,
        rename_monomial]

omit [DecidableEq K] in
/-- Projecting to one variable and embedding again gives the polynomial. -/
theorem rename_toUnivariate
    {vars : Fin numVars → Symbol}
    {poly : MultivariatePolynomial vars K}
    {varIndex : Fin numVars}
    {univariate : MultivariatePolynomial (fun _ : Fin 1 => vars varIndex) K}
    (projects : poly.toUnivariate varIndex = .ok univariate) :
    MvPolynomial.rename (fun _ => varIndex) univariate.toMvPolynomial =
      poly.toMvPolynomial := by
  unfold toUnivariate at projects
  split at projects
  · rename_i elsewhereZero
    cases projects
    simp only [toMvPolynomial]
    generalize poly.terms = terms at elsewhereZero
    induction terms with
    | nil =>
        simp
    | cons first rest inductionHypothesis =>
        have isSingle :
            first.1 = Monomial.single varIndex (first.1.exponent varIndex) := by
          ext index
          by_cases same : index = varIndex
          · simp [Monomial.single, same]
          · simp [Monomial.single, same, elsewhereZero first (by simp) index same]
        have restValue :=
          inductionHypothesis
            (fun term member => elsewhereZero term (by simp [member]))
        rw [List.map_cons, termsValue_cons, map_add, restValue, rename_monomial,
          termsValue_cons]
        exact congrArg
          (fun monomial =>
            MvPolynomial.monomial (Monomial.toFinsupp monomial) first.2 +
              termsValue rest)
          isSingle.symm
  · cases projects

end MultivariatePolynomial

end PolyCore
