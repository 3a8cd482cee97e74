import Stocas.Calculus.RealDerivative
import Stocas.Calculus.TaylorExpansion

namespace CalculusCore

open AtomCore (AtomTree)
open Outcome (bind_eq_ok)
open RealReading
open SymbolTable (Snapshot Symbol)
open TaylorJet
open scoped Topology

/-!
# Both engines compute the same derivatives

The coefficients of a series expansion, which come from arithmetic on truncated series, and
the values of the iterated symbolic derivatives, which come from rewriting atoms, are the
derivatives of one function.
-/

variable {order : ℕ} {table : Snapshot} {reading : RealReading} {point : ℝ}
  {tree derived : AtomTree} {registry : HookRegistry}

/-- All derivatives up to a count have values at the point. -/
def StagesDefined
    (table : Snapshot)
    (reading : RealReading)
    (registry : HookRegistry)
    (point : ℝ)
    (count : ℕ)
    (tree : AtomTree) : Prop :=
  ∀ j, j ≤ count → ∀ stage,
    iterateDerivative table reading.symbols registry reading.variable_ j tree = .ok stage →
      reading.DefinedAt point stage

/-- The iterated symbolic derivative denotes the iterated derivative. -/
theorem denotes_of_iterateDerivative
    (distinct : reading.symbols.Distinct)
    (hooks :
      ∀ head hook,
        (registry.ensureBuiltinHooksRegistered reading.symbols).get head = some hook →
          reading.HookDenotes point head hook)
    {f : ℝ → ℝ}
    (denotes : reading.Denotes tree f point)
    {count : ℕ}
    (defined : StagesDefined table reading registry point count tree)
    (returned :
      iterateDerivative table reading.symbols registry reading.variable_ count tree =
        .ok derived) :
    reading.Denotes derived (iteratedDeriv count f) point := by
  induction count generalizing registry tree f with
  | zero =>
      cases returned
      rwa [iteratedDeriv_zero]
  | succ count inductionHypothesis =>
      obtain ⟨first, firstReturned, rest⟩ := bind_eq_ok.mp returned
      have firstStage :
          iterateDerivative table reading.symbols registry reading.variable_ 1 tree =
            .ok first :=
        bind_eq_ok.mpr ⟨first, firstReturned, rfl⟩
      obtain ⟨g, isTree, isFirst⟩ :=
        differentiates_of_derivativeImpl distinct hooks firstReturned
          (defined 0 (Nat.zero_le _) tree rfl)
          (defined 1 (Nat.succ_le_succ (Nat.zero_le count)) first firstStage)
      have firstDenotes : reading.Denotes first (deriv f) point :=
        isFirst.congr (isTree.unique denotes).deriv
      rw [iteratedDeriv_succ']
      refine inductionHypothesis ?_ firstDenotes ?_ rest
      · intro head hook found
        rw [ensureBuiltinHooksRegistered_eq (builtinRegistered_ensure registry)] at found
        exact hooks head hook found
      · intro j within stage stageReturned
        refine defined (j + 1) (Nat.succ_le_succ within) stage ?_
        exact bind_eq_ok.mpr ⟨first, firstReturned, stageReturned⟩

/--
A coefficient of a series expansion times its factorial is the value of the iterated
symbolic derivative, for all atoms with both, after any calls that registered right hooks.
-/
theorem taylorSeries_eq_iterateDerivative
    (distinct : reading.symbols.Distinct)
    {calls : List HookCall}
    (registered :
      ∀ head hook,
        .registerDerivativeHook head hook ∈ calls → reading.HookDenotes point head hook)
    {series : Series ℝ order}
    (expanded :
      taylorSeries order table reading.symbols realFunctions tree reading.variable_ point =
        .ok series)
    {k : ℕ}
    (within : k ≤ order)
    (defined :
      StagesDefined table reading
        (Transition.run (HookCall.step table reading.symbols) .fresh calls) point k tree)
    (returned :
      iterateDerivative table reading.symbols
        (Transition.run (HookCall.step table reading.symbols) .fresh calls)
        reading.variable_ k tree = .ok derived) :
    ∃ coefficient,
      series.coefficient k = .ok coefficient ∧
        reading.valueAt derived point = some ((k.factorial : ℝ) * coefficient) := by
  obtain ⟨denotes, _, coefficients⟩ := coefficient_eq_jet expanded
  have derivedDenotes :=
    denotes_of_iterateDerivative distinct
      (fun _ _ found => hookDenotes_of_registryInUse distinct registered found) denotes
      defined returned
  have inside : k < order + 1 := Nat.lt_succ_of_le within
  refine ⟨series.coefficients.getD k 0, ?_, ?_⟩
  · rw [Series.coefficient]
    simp [Vector.getD, inside]
  · have nonzero : (k.factorial : ℝ) ≠ 0 := Nat.cast_ne_zero.mpr k.factorial_ne_zero
    rw [derivedDenotes.valueAt_eq, coefficients k within, coeff_jet,
      mul_div_cancel₀ _ nonzero]

/-- `exp(x)`. -/
def exponentialAtom : AtomTree :=
  .func ⟨3⟩ [.var ⟨0⟩]

/-- The first derivative of `exp(x)`, as it is built. -/
def exponentialFirst : AtomTree :=
  .add [.mul [.num 1, .func ⟨3⟩ [.var ⟨0⟩]]]

/-- The second derivative of `exp(x)`, as it is built. -/
def exponentialSecond : AtomTree :=
  .add
    [.mul [.num 0, .func ⟨3⟩ [.var ⟨0⟩]],
      .mul [.num 1, .add [.mul [.num 1, .func ⟨3⟩ [.var ⟨0⟩]]]]]

private theorem exists_series_exponentialAtom :
    ∃ series : Series ℝ 2,
      taylorSeries 2 .empty plainReading.symbols realFunctions exponentialAtom
        plainReading.variable_ 0 = .ok series := by
  apply exists_taylorSeries distinct_plainReading
  · refine .node ⟨rfl, by decide⟩ ?_
    simp only [exponentialAtom, AtomTree.children, List.forall_mem_cons]
    exact ⟨.node rfl (List.forall_mem_nil _), List.forall_mem_nil _⟩
  · refine .node (fun isLn => absurd isLn (by decide)) ?_
    simp only [exponentialAtom, AtomTree.children, List.forall_mem_cons]
    exact ⟨.node trivial (List.forall_mem_nil _), List.forall_mem_nil _⟩

/-- The second coefficient of `exp(x)` at 0 is half of the second derivative there. -/
theorem taylorSeries_eq_iterateDerivative_exponentialAtom :
    ∃ (series : Series ℝ 2) (coefficient : ℝ),
      taylorSeries 2 .empty plainReading.symbols realFunctions exponentialAtom
          plainReading.variable_ 0 = .ok series ∧
        series.coefficient 2 = .ok coefficient ∧
        plainReading.valueAt exponentialSecond 0 = some ((2 : ℝ) * coefficient) := by
  obtain ⟨series, expanded⟩ := exists_series_exponentialAtom
  have first :
      iterateDerivative .empty plainReading.symbols .fresh plainReading.variable_ 1
        exponentialAtom = .ok exponentialFirst := by
    decide +kernel
  have second :
      iterateDerivative .empty plainReading.symbols .fresh plainReading.variable_ 2
        exponentialAtom = .ok exponentialSecond := by
    decide +kernel
  have defined :
      StagesDefined .empty plainReading .fresh 0 2 exponentialAtom := by
    intro j within stage returned
    match j with
    | 0 =>
        cases returned
        rfl
    | 1 =>
        rw [first] at returned
        cases returned
        rfl
    | 2 =>
        rw [second] at returned
        cases returned
        rfl
    | j + 3 =>
        omega
  have registered :
      ∀ head hook,
        HookCall.registerDerivativeHook head hook ∈ ([] : List HookCall) →
          plainReading.HookDenotes 0 head hook :=
    fun _ _ member => (List.not_mem_nil member).elim
  obtain ⟨coefficient, found, value⟩ :=
    taylorSeries_eq_iterateDerivative distinct_plainReading registered expanded
      (Nat.le_refl 2) defined second
  exact ⟨series, coefficient, expanded, found, by simpa using value⟩

end CalculusCore
