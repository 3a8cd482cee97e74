import Stocas.Calculus.SeriesTaylor

namespace CalculusCore

open AtomCore (AtomTree)
open AtomCore.AtomTree (Everywhere everywhere_iff)
open NumericaCore (HyperDual)
open Outcome (bind_eq_error bind_eq_ok)
open RealReading
open SymbolTable (Snapshot Symbol)
open TaylorJet
open scoped Topology

/-!
# When an expansion is returned, and how good it is

The documented exceptions are exact: an expansion throws for an atom with a node that is
not supported, or with a pole or an undefined logarithm at the point, and for no other.
An expansion that is returned agrees with the function up to its order.
-/

variable {order : ℕ} {table : Snapshot} {reading : RealReading} {point : ℝ}
  {tree : AtomTree}

/-- The only variable is that of the expansion, and calls are of known unary heads. -/
def SupportedNode (symbols : CalculusSymbols) (variable_ : Symbol) : AtomTree → Prop
  | .var symbol => symbol = variable_
  | .func head arguments =>
      arguments.length = 1 ∧ head ∈ [symbols.sin, symbols.cos, symbols.exp, symbols.ln]
  | .num _ | .add _ | .mul _ | .pow _ _ => True

/-- The node has no pole at the point, and takes logarithms of positive values only. -/
def RegularNode (reading : RealReading) (point : ℝ) : AtomTree → Prop
  | .pow base exponent =>
      match integerLiteral exponent with
      | some n => n < 0 → reading.valueAt base point ≠ some 0
      | none => ∀ u, reading.valueAt base point = some u → 0 < u
  | .func head [argument] =>
      head = reading.symbols.ln → ∀ u, reading.valueAt argument point = some u → 0 < u
  | .num _ | .var _ | .add _ | .mul _ | .func _ _ => True

/-- An atom of supported nodes. -/
abbrev Supported (reading : RealReading) (tree : AtomTree) : Prop :=
  tree.Everywhere (SupportedNode reading.symbols reading.variable_)

/-- An atom of regular nodes. -/
abbrev Regular (reading : RealReading) (point : ℝ) (tree : AtomTree) : Prop :=
  tree.Everywhere (RegularNode reading point)

/-- What an outcome says about the atom. -/
def Explains
    {α : Type*}
    (reading : RealReading)
    (point : ℝ)
    (tree : AtomTree) :
    Except SeriesError α → Prop
  | .ok _ => Supported reading tree ∧ Regular reading point tree
  | .error (.invalidArgument _) => ¬Supported reading tree
  | .error (.domainError _) => ¬Regular reading point tree
  | .error .outOfRange => False

section Explained

variable {α β : Type*}

/-- An exception of a child explains one of its parent. -/
theorem Explains.of_child
    {child : AtomTree}
    {error : SeriesError}
    (member : child ∈ tree.children)
    (explains : Explains reading point child (.error error : Except SeriesError α)) :
    Explains reading point tree (.error error : Except SeriesError β) := by
  cases error with
  | invalidArgument message =>
      exact fun supported => explains (supported.child member)
  | domainError message =>
      exact fun regular => explains (regular.child member)
  | outOfRange =>
      exact explains

/-- Nodes without conditions of their own are explained by their children. -/
theorem explains_ok_of_children
    {result : α}
    (supportedNode : SupportedNode reading.symbols reading.variable_ tree)
    (regularNode : RegularNode reading point tree)
    (all :
      ∀ child ∈ tree.children, Supported reading child ∧ Regular reading point child) :
    Explains reading point tree (.ok result) :=
  ⟨.node supportedNode fun child member => (all child member).1,
    .node regularNode fun child member => (all child member).2⟩

/-- A series operation throws domain errors only. -/
theorem liftDomain_eq_error
    {outcome : Except NumericaCore.DomainError α}
    {error : SeriesError}
    (fails : liftDomain outcome = .error error) :
    ∃ message, error = .domainError message := by
  cases outcome with
  | error failure =>
      cases fails
      exact ⟨_, rfl⟩
  | ok result =>
      cases fails

end Explained

/-- An integer power that throws meets a pole. -/
theorem integerPower_eq_error
    {f : ℝ → ℝ}
    {x : HyperDual ℝ order}
    (isX : x.Represents (jet f point))
    {n : ℤ}
    {error : SeriesError}
    (fails : integerPower x n = .error error) :
    (∃ message, error = .domainError message) ∧ n < 0 ∧ f point = 0 := by
  have irregular : ¬(f point ≠ 0 ∨ 0 ≤ n) := by
    rw [← integerPower_eq_ok_iff isX n, fails]
    rintro ⟨result, impossible⟩
    cases impossible
  obtain ⟨isZero, negative⟩ := not_or.mp irregular
  refine ⟨?_, not_le.mp negative, not_not.mp isZero⟩
  rw [integerPower, if_pos (not_le.mp negative)] at fails
  exact liftDomain_eq_error fails

/-- A logarithm that throws has an argument that is not positive. -/
theorem log_eq_error
    {f : ℝ → ℝ}
    {x : HyperDual ℝ order}
    (isX : x.Represents (jet f point))
    {error : SeriesError}
    (fails : liftDomain (x.log realFunctions) = .error error) :
    (∃ message, error = .domainError message) ∧ ¬0 < f point := by
  refine ⟨liftDomain_eq_error fails, fun positive => ?_⟩
  have tested : realFunctions.isPositive (x.coefficient 0) = true := by
    rw [isX.coefficient_zero, constantCoeff_jet]
    exact decide_eq_true positive
  rw [HyperDual.log, if_pos tested] at fails
  cases fails

/-- The value of an atom at the point, from its expansion. -/
theorem ExpandsTo.exists_value
    {result : HyperDual ℝ order}
    (expands : ExpandsTo reading point tree result) :
    ∃ f, result.Represents (jet f point) ∧ reading.valueAt tree point = some (f point) := by
  obtain ⟨f, denotes, isResult⟩ := expands
  exact ⟨f, isResult, denotes.valueAt_eq⟩

section Loops

/-- A loop that visits each item once fails for an item, or visits them all. -/
theorem foldlM_visit_outcome
    {ε σ α β : Type*}
    (visit : α → Except ε β)
    (combine : σ → β → σ)
    (items : List α)
    (start : σ) :
    (∀ result,
      items.foldlM (fun total item => (visit item).map (combine total)) start = .ok result →
        ∀ item ∈ items, ∃ visited, visit item = .ok visited) ∧
    (∀ error,
      items.foldlM (fun total item => (visit item).map (combine total)) start =
          .error error →
        ∃ item ∈ items, visit item = .error error) := by
  induction items generalizing start with
  | nil =>
      exact ⟨fun _ _ => List.forall_mem_nil _, fun _ fails => by cases fails⟩
  | cons item rest inductionHypothesis =>
      rw [List.foldlM_cons]
      cases first : visit item with
      | error failure =>
          constructor
          · intro result returned
            cases returned
          · intro error fails
            cases fails
            exact ⟨item, List.mem_cons_self, first⟩
      | ok visited =>
          constructor
          · intro result returned
            exact List.forall_mem_cons.mpr
              ⟨⟨visited, first⟩,
                (inductionHypothesis (combine start visited)).1 result returned⟩
          · intro error fails
            obtain ⟨other, member, failed⟩ :=
              (inductionHypothesis (combine start visited)).2 error fails
            exact ⟨other, List.mem_cons_of_mem _ member, failed⟩

theorem evaluateSum_eq_foldlM
    (terms : List AtomTree)
    (sum : HyperDual ℝ order) :
    evaluateSum table reading.symbols realFunctions reading.variable_ (.independent point)
        terms sum =
      terms.foldlM
        (fun total term =>
          (realExpansion order table reading point term).map (HyperDual.add total)) sum := by
  induction terms generalizing sum with
  | nil =>
      rfl
  | cons term rest inductionHypothesis =>
      rw [evaluateSum, List.foldlM_cons, ← realExpansion]
      cases realExpansion order table reading point term with
      | error error =>
          rfl
      | ok next =>
          exact inductionHypothesis (sum.add next)

theorem evaluateProduct_eq_foldlM
    (factors : List AtomTree)
    (product : HyperDual ℝ order) :
    evaluateProduct table reading.symbols realFunctions reading.variable_
        (.independent point) factors product =
      factors.foldlM
        (fun total factor =>
          (realExpansion order table reading point factor).map (HyperDual.mul total))
        product := by
  induction factors generalizing product with
  | nil =>
      rfl
  | cons factor rest inductionHypothesis =>
      rw [evaluateProduct, List.foldlM_cons, ← realExpansion]
      cases realExpansion order table reading point factor with
      | error error =>
          rfl
      | ok next =>
          exact inductionHypothesis (product.mul next)

end Loops

/-- A loop over the children of a sum or product is explained by the children. -/
private theorem explains_loop
    {children : List AtomTree}
    {combine : HyperDual ℝ order → HyperDual ℝ order → HyperDual ℝ order}
    {start : HyperDual ℝ order}
    (children_eq : tree.children = children)
    (supportedNode : SupportedNode reading.symbols reading.variable_ tree)
    (regularNode : RegularNode reading point tree)
    (all :
      ∀ child ∈ children,
        Explains reading point child (realExpansion order table reading point child)) :
    Explains reading point tree
      (children.foldlM
        (fun total child =>
          (realExpansion order table reading point child).map (combine total)) start) := by
  subst children_eq
  obtain ⟨returns, throws⟩ :=
    foldlM_visit_outcome (realExpansion order table reading point) combine tree.children start
  cases outcome :
      tree.children.foldlM
        (fun total child =>
          (realExpansion order table reading point child).map (combine total)) start with
  | ok result =>
      apply explains_ok_of_children supportedNode regularNode
      intro child member
      obtain ⟨visited, returned⟩ := returns result outcome child member
      have explained := all child member
      rw [returned] at explained
      exact explained
  | error error =>
      obtain ⟨child, member, failed⟩ := throws error outcome
      have explained := all child member
      rw [failed] at explained
      exact explained.of_child member

/-- A number has no conditions. -/
private theorem supported_and_regular_num
    (value : ℚ) :
    Supported reading (.num value) ∧ Regular reading point (.num value) :=
  ⟨.node trivial (List.forall_mem_nil _), .node trivial (List.forall_mem_nil _)⟩

/-- The expansion of a power is explained by its parts. -/
private theorem explains_pow
    {base exponent : AtomTree}
    (baseExplains :
      Explains reading point base (realExpansion order table reading point base))
    (exponentExplains :
      Explains reading point exponent (realExpansion order table reading point exponent)) :
    Explains reading point (.pow base exponent)
      (realExpansion order table reading point (.pow base exponent)) := by
  have baseMember : base ∈ (AtomTree.pow base exponent).children := by
    simp [AtomTree.children]
  have exponentMember : exponent ∈ (AtomTree.pow base exponent).children := by
    simp [AtomTree.children]
  rw [realExpansion, evaluateHyperDual_pow, ← realExpansion, ← realExpansion]
  cases baseOutcome : realExpansion order table reading point base with
  | error error =>
      rw [baseOutcome] at baseExplains
      exact baseExplains.of_child baseMember
  | ok inner =>
      rw [baseOutcome] at baseExplains
      obtain ⟨f, isBase, baseValue⟩ := (expandsTo_of_realExpansion baseOutcome).exists_value
      cases literal : integerLiteral exponent with
      | some n =>
          cases outcome : integerPower inner n with
          | error error =>
              obtain ⟨⟨message, rfl⟩, negative, isZero⟩ := integerPower_eq_error isBase outcome
              simp only [Except.bind, outcome]
              intro regular
              have node := regular.root
              rw [RegularNode, literal] at node
              exact node negative (isZero ▸ baseValue)
          | ok result =>
              simp only [Except.bind, outcome]
              have numeral := integerLiteral_eq_some_iff.mp literal
              apply explains_ok_of_children
              · trivial
              · rw [RegularNode, literal]
                intro negative isZero
                rw [baseValue, Option.some.injEq] at isZero
                have regular := (integerPower_eq_ok_iff isBase n).mp ⟨result, outcome⟩
                exact regular.elim (fun nonzero => nonzero isZero) (not_le.mpr negative)
              · rw [numeral, AtomTree.children]
                exact List.forall_mem_cons.mpr
                  ⟨baseExplains, List.forall_mem_cons.mpr
                    ⟨supported_and_regular_num n, List.forall_mem_nil _⟩⟩
      | none =>
          cases exponentOutcome : realExpansion order table reading point exponent with
          | error error =>
              rw [exponentOutcome] at exponentExplains
              exact exponentExplains.of_child exponentMember
          | ok outer =>
              rw [exponentOutcome] at exponentExplains
              cases outcome : liftDomain (inner.log realFunctions) with
              | error error =>
                  obtain ⟨⟨message, rfl⟩, notPositive⟩ := log_eq_error isBase outcome
                  simp only [Except.bind, outcome]
                  intro regular
                  have node := regular.root
                  rw [RegularNode, literal] at node
                  exact notPositive (node (f point) baseValue)
              | ok logarithm =>
                  simp only [Except.bind, outcome]
                  obtain ⟨g, denotes, isInner⟩ := expandsTo_of_realExpansion baseOutcome
                  have positive :=
                    (represents_log_jet denotes.analytic isInner (liftDomain_eq_ok outcome)).1
                  apply explains_ok_of_children
                  · trivial
                  · rw [RegularNode, literal]
                    intro u isValue
                    rw [denotes.valueAt_eq, Option.some.injEq] at isValue
                    exact isValue ▸ positive
                  · rw [AtomTree.children]
                    exact List.forall_mem_cons.mpr
                      ⟨baseExplains, List.forall_mem_cons.mpr
                        ⟨exponentExplains, List.forall_mem_nil _⟩⟩
/-- A call is explained by its argument and its head. -/
private theorem explains_func
    (distinct : reading.symbols.Distinct)
    {head : Symbol}
    {arguments : List AtomTree}
    (all :
      ∀ argument ∈ arguments,
        Explains reading point argument (realExpansion order table reading point argument)) :
    Explains reading point (.func head arguments)
      (realExpansion order table reading point (.func head arguments)) := by
  match arguments with
  | [argument] =>
      have argumentExplains := all argument List.mem_cons_self
      have member : argument ∈ (AtomTree.func head [argument]).children := by
        simp [AtomTree.children]
      rw [realExpansion, evaluateHyperDual, evaluateCall, ← realExpansion]
      cases argumentOutcome : realExpansion order table reading point argument with
      | error error =>
          rw [argumentOutcome] at argumentExplains
          exact argumentExplains.of_child member
      | ok inner =>
          rw [argumentOutcome] at argumentExplains
          simp only [Outcome.ok_bind]
          have children :
              ∀ child ∈ (AtomTree.func head [argument]).children,
                Supported reading child ∧ Regular reading point child := by
            intro child isChild
            rw [List.mem_singleton.mp isChild]
            exact argumentExplains
          have node :
              head ∈ [reading.symbols.sin, reading.symbols.cos, reading.symbols.exp,
                  reading.symbols.ln] →
                SupportedNode reading.symbols reading.variable_ (.func head [argument]) :=
            fun known => ⟨rfl, known⟩
          rw [CalculusSymbols.Distinct] at distinct
          simp only [List.nodup_cons, List.mem_cons, List.not_mem_nil, or_false, not_or]
            at distinct
          obtain ⟨⟨_, _, sinLn⟩, ⟨_, cosLn⟩, expLn, _⟩ := distinct
          rw [applyFunction]
          split_ifs with isSin isCos isExp isLn
          · apply explains_ok_of_children (node (by simp [isSin])) _ children
            exact fun isLn => absurd (isSin.symm.trans isLn) sinLn
          · apply explains_ok_of_children (node (by simp [isCos])) _ children
            exact fun isLn => absurd (isCos.symm.trans isLn) cosLn
          · apply explains_ok_of_children (node (by simp [isExp])) _ children
            exact fun isLn => absurd (isExp.symm.trans isLn) expLn
          · obtain ⟨f, denotes, isInner⟩ := expandsTo_of_realExpansion argumentOutcome
            cases outcome : liftDomain (inner.log realFunctions) with
            | error error =>
                obtain ⟨⟨message, rfl⟩, notPositive⟩ := log_eq_error isInner outcome
                intro regular
                exact notPositive (regular.root isLn (f point) denotes.valueAt_eq)
            | ok logarithm =>
                apply explains_ok_of_children (node (by simp [isLn])) _ children
                intro _ u isValue
                rw [denotes.valueAt_eq, Option.some.injEq] at isValue
                rw [← isValue]
                exact (represents_log_jet denotes.analytic isInner
                  (liftDomain_eq_ok outcome)).1
          · intro supported
            have known := supported.root.2
            simp [isSin, isCos, isExp, isLn] at known
  | [] =>
      intro supported
      exact absurd supported.root.1 (by simp)
  | _ :: _ :: _ =>
      intro supported
      exact absurd supported.root.1 (by simp)

/-- Every outcome of an expansion says why. -/
theorem explains_realExpansion
    (distinct : reading.symbols.Distinct)
    (tree : AtomTree) :
    Explains reading point tree (realExpansion order table reading point tree) := by
  induction tree with
  | num value =>
      exact supported_and_regular_num value
  | var symbol =>
      rw [realExpansion, evaluateHyperDual]
      split_ifs with same
      · exact ⟨.node same (List.forall_mem_nil _), .node trivial (List.forall_mem_nil _)⟩
      · exact fun supported => same supported.root
  | add terms inductionHypothesis =>
      rw [realExpansion, evaluateHyperDual, evaluateSum_eq_foldlM]
      exact explains_loop rfl trivial trivial inductionHypothesis
  | mul factors inductionHypothesis =>
      rw [realExpansion, evaluateHyperDual, evaluateProduct_eq_foldlM]
      exact explains_loop rfl trivial trivial inductionHypothesis
  | pow base exponent baseHypothesis exponentHypothesis =>
      exact explains_pow baseHypothesis exponentHypothesis
  | func head arguments inductionHypothesis =>
      exact explains_func distinct inductionHypothesis

theorem taylorSeries_eq_map :
    taylorSeries order table reading.symbols realFunctions tree reading.variable_ point =
      (realExpansion order table reading point tree).map fun result =>
        { point := point
          coefficients := .ofFn fun k => result.coefficient k } := by
  rw [taylorSeries, ← realExpansion]
  cases realExpansion order table reading point tree with
  | error error =>
      rfl
  | ok result =>
      rfl

theorem explains_taylorSeries
    (distinct : reading.symbols.Distinct) :
    Explains reading point tree
      (taylorSeries order table reading.symbols realFunctions tree reading.variable_
        point) := by
  have explained :
      Explains reading point tree (realExpansion order table reading point tree) :=
    explains_realExpansion distinct tree
  rw [taylorSeries_eq_map]
  cases outcome : realExpansion order table reading point tree with
  | error error =>
      rw [outcome] at explained
      cases error with
      | invalidArgument message =>
          exact explained
      | domainError message =>
          exact explained
      | outOfRange =>
          exact explained
  | ok result =>
      rw [outcome] at explained
      exact explained

/-- A series is returned for supported and regular atoms. -/
theorem exists_taylorSeries
    (distinct : reading.symbols.Distinct)
    (supported : Supported reading tree)
    (regular : Regular reading point tree) :
    ∃ series : Series ℝ order,
      taylorSeries order table reading.symbols realFunctions tree reading.variable_ point =
        .ok series := by
  have explained :
      Explains reading point tree
        (taylorSeries order table reading.symbols realFunctions tree reading.variable_
          point) :=
    explains_taylorSeries distinct
  cases outcome :
      taylorSeries order table reading.symbols realFunctions tree reading.variable_ point with
  | ok series =>
      exact ⟨series, rfl⟩
  | error error =>
      rw [outcome] at explained
      cases error with
      | invalidArgument message =>
          exact absurd supported explained
      | domainError message =>
          exact absurd regular explained
      | outOfRange =>
          exact explained.elim

/--
A series is returned exactly for supported atoms that are regular at the point, the one
exception is thrown only for unsupported atoms, and the other only at singular points.
-/
theorem taylorSeries_outcome
    (distinct : reading.symbols.Distinct)
    (order : ℕ)
    (table : Snapshot)
    (point : ℝ)
    (tree : AtomTree) :
    ((∃ series,
        taylorSeries order table reading.symbols realFunctions tree reading.variable_ point =
          .ok series) ↔
      Supported reading tree ∧ Regular reading point tree) ∧
    (∀ message,
      taylorSeries order table reading.symbols realFunctions tree reading.variable_ point =
          .error (.invalidArgument message) →
        ¬Supported reading tree) ∧
    (∀ message,
      taylorSeries order table reading.symbols realFunctions tree reading.variable_ point =
          .error (.domainError message) →
        ¬Regular reading point tree) ∧
    taylorSeries order table reading.symbols realFunctions tree reading.variable_ point ≠
      .error .outOfRange := by
  have explained :
      Explains reading point tree
        (taylorSeries order table reading.symbols realFunctions tree reading.variable_
          point) :=
    explains_taylorSeries distinct
  refine ⟨⟨?_, fun holds => exists_taylorSeries distinct holds.1 holds.2⟩, ?_, ?_, ?_⟩
  · rintro ⟨series, returned⟩
    rw [returned] at explained
    exact explained
  · intro message thrown
    rw [thrown] at explained
    exact explained
  · intro message thrown
    rw [thrown] at explained
    exact explained
  · intro thrown
    rw [thrown] at explained
    exact explained

/-- `ln(1 + x)`. -/
def logarithmAtom : AtomTree :=
  .func ⟨4⟩ [.add [.num 1, .var ⟨0⟩]]

theorem supported_logarithmAtom :
    Supported plainReading logarithmAtom := by
  have inner : Supported plainReading (.add [.num 1, .var ⟨0⟩]) := by
    refine .node trivial ?_
    simp only [AtomTree.children, List.forall_mem_cons]
    exact ⟨.node trivial (List.forall_mem_nil _), .node rfl (List.forall_mem_nil _),
      List.forall_mem_nil _⟩
  refine .node ⟨rfl, by decide⟩ ?_
  simp only [logarithmAtom, AtomTree.children, List.forall_mem_cons]
  exact ⟨inner, List.forall_mem_nil _⟩

theorem regular_logarithmAtom :
    Regular plainReading 0 logarithmAtom := by
  have inner : Regular plainReading 0 (.add [.num 1, .var ⟨0⟩]) := by
    refine .node trivial ?_
    simp only [AtomTree.children, List.forall_mem_cons]
    exact ⟨.node trivial (List.forall_mem_nil _), .node trivial (List.forall_mem_nil _),
      List.forall_mem_nil _⟩
  refine .node ?_ ?_
  · intro _ u isValue
    rw [valueAt, AtomTree.eval, AtomTree.evalAll, AtomTree.eval, AtomTree.evalAll,
      AtomTree.eval, AtomTree.evalAll] at isValue
    simp [meaningAt, plainReading] at isValue
    rw [← isValue]
    exact one_pos
  · simp only [logarithmAtom, AtomTree.children, List.forall_mem_cons]
    exact ⟨inner, List.forall_mem_nil _⟩

theorem exists_series_logarithmAtom :
    ∃ series : Series ℝ 2,
      taylorSeries 2 .empty plainReading.symbols realFunctions logarithmAtom
        plainReading.variable_ 0 = .ok series :=
  exists_taylorSeries distinct_plainReading supported_logarithmAtom regular_logarithmAtom

/-- `ln(1 + x)` has a series around 0, and throws for nothing. -/
theorem taylorSeries_outcome_logarithmAtom :
    ∃ series,
      taylorSeries 2 .empty plainReading.symbols realFunctions logarithmAtom
        plainReading.variable_ 0 = .ok series :=
  ((taylorSeries_outcome distinct_plainReading 2 .empty 0 logarithmAtom).1).mpr
    ⟨supported_logarithmAtom, regular_logarithmAtom⟩

/-- The coefficients of a series are derivatives divided by factorials. -/
theorem coefficient_eq_jet
    {series : Series ℝ order}
    (expanded :
      taylorSeries order table reading.symbols realFunctions tree reading.variable_ point =
        .ok series) :
    reading.Denotes tree (reading.function tree) point ∧
      series.point = point ∧
      ∀ k, k ≤ order →
        series.coefficients.getD k 0 =
          PowerSeries.coeff k (jet (reading.function tree) point) := by
  obtain ⟨result, returned, ended⟩ := bind_eq_ok.mp expanded
  cases ended
  obtain ⟨f, denotes, isResult⟩ := expandsTo_of_realExpansion returned
  have same := denotes.eventuallyEq_function
  refine ⟨denotes.congr same, rfl, ?_⟩
  intro k within
  rw [← jet_congr same, ← isResult k within]
  simp [Vector.getD, Nat.lt_succ_of_le within]

/--
A series that is returned holds the derivatives of the function that the atom denotes
near the point, divided by factorials.
-/
theorem taylorSeries_coefficient
    {series : Series ℝ order}
    (expanded :
      taylorSeries order table reading.symbols realFunctions tree reading.variable_ point =
        .ok series) :
    reading.Denotes tree (reading.function tree) point ∧
      series.point = point ∧
      ∀ k, k ≤ order →
        series.coefficient k =
          .ok (iteratedDeriv k (reading.function tree) point / (k.factorial : ℝ)) := by
  obtain ⟨denotes, samePoint, coefficients⟩ := coefficient_eq_jet expanded
  refine ⟨denotes, samePoint, ?_⟩
  intro k within
  have inside : k < order + 1 := Nat.lt_succ_of_le within
  rw [← coeff_jet, ← coefficients k within, Series.coefficient]
  simp [Vector.getD, inside]

/-- The coefficients of `ln(1 + x)` around 0. -/
theorem taylorSeries_coefficient_logarithmAtom :
    ∃ series : Series ℝ 2,
      taylorSeries 2 .empty plainReading.symbols realFunctions logarithmAtom
          plainReading.variable_ 0 = .ok series ∧
        plainReading.Denotes logarithmAtom (plainReading.function logarithmAtom) 0 ∧
        series.coefficient 2 =
          .ok (iteratedDeriv 2 (plainReading.function logarithmAtom) 0 / (2 : ℝ)) := by
  obtain ⟨series, expanded⟩ :=
    exists_series_logarithmAtom
  obtain ⟨denotes, _, coefficients⟩ := taylorSeries_coefficient expanded
  exact ⟨series, expanded, denotes, by simpa using coefficients 2 (Nat.le_refl 2)⟩

/-- `Series::evaluate`: Horner's method. -/
def Series.evaluate
    {F : Type*}
    [Field F]
    (series : Series F order)
    (x : F) :
    F :=
  (List.range order).reverse.foldl
    (fun result k => result * (x - series.point) + series.coefficients.getD k 0)
    (series.coefficients.getD order 0)

/-- Horner's method computes a sum of powers. -/
theorem foldl_horner
    {F : Type*}
    [Field F]
    (coefficientAt : ℕ → F)
    (delta start : F)
    (count : ℕ) :
    (List.range count).reverse.foldl (fun result k => result * delta + coefficientAt k)
        start =
      start * delta ^ count +
        ∑ k ∈ Finset.range count, coefficientAt k * delta ^ k := by
  induction count generalizing start with
  | zero =>
      simp
  | succ count inductionHypothesis =>
      rw [List.range_succ, List.reverse_append, List.reverse_singleton, List.singleton_append,
        List.foldl_cons, inductionHypothesis, Finset.sum_range_succ]
      ring

theorem Series.evaluate_eq_sum
    {F : Type*}
    [Field F]
    (series : Series F order)
    (x : F) :
    series.evaluate x =
      ∑ k ∈ Finset.range (order + 1),
        series.coefficients.getD k 0 * (x - series.point) ^ k := by
  rw [Series.evaluate, foldl_horner, Finset.sum_range_succ, add_comm]

/-- The documented remainder: the series is exact up to its order. -/
theorem taylorSeries_remainder
    {series : Series ℝ order}
    (expanded :
      taylorSeries order table reading.symbols realFunctions tree reading.variable_ point =
        .ok series) :
    (∀ᶠ y in 𝓝 point, reading.valueAt tree y = some (reading.function tree y)) ∧
      (fun y => reading.function tree y - series.evaluate y)
        =O[𝓝 point] fun y => ‖y - point‖ ^ (order + 1) := by
  obtain ⟨denotes, samePoint, coefficients⟩ := coefficient_eq_jet expanded
  refine ⟨denotes.defined, ?_⟩
  have remainder := sub_sum_jet_isBigO denotes.analytic (order + 1)
  have terms : ∀ y : ℝ,
      series.evaluate y =
        ∑ k ∈ Finset.range (order + 1),
          PowerSeries.coeff k (jet (reading.function tree) point) * (y - point) ^ k := by
    intro y
    rw [Series.evaluate_eq_sum, samePoint]
    apply Finset.sum_congr rfl
    intro k inRange
    rw [coefficients k (Nat.le_of_lt_succ (Finset.mem_range.mp inRange))]
  simpa only [terms] using remainder

/-- The series of `ln(1 + x)` around 0 is exact up to its order. -/
theorem taylorSeries_remainder_logarithmAtom :
    ∃ series : Series ℝ 2,
      taylorSeries 2 .empty plainReading.symbols realFunctions logarithmAtom
          plainReading.variable_ 0 = .ok series ∧
        (fun y => plainReading.function logarithmAtom y - series.evaluate y)
          =O[𝓝 0] fun y => ‖y - 0‖ ^ 3 := by
  obtain ⟨series, expanded⟩ :=
    exists_series_logarithmAtom
  exact ⟨series, expanded, (taylorSeries_remainder expanded).2⟩

end CalculusCore
