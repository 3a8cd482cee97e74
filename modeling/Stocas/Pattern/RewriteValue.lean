import Mathlib.Algebra.BigOperators.Group.List.Basic
import Mathlib.Algebra.Ring.Defs
import Stocas.Pattern.Rewrite
import Stocas.Pattern.Soundness

namespace PatternCore

open AtomCore (AtomTree)
open AtomCore.AtomTree (mkAdd mkMul)
open Outcome (bind_eq_ok map_eq_ok)
open RecordedOutcomes (Run run_bind run_pure run_fail)
open SymbolTable (Snapshot Symbol)

/-!
# Rewriting keeps values

Atoms have values in a commutative ring; powers and functions are any functions of
the values of their parts, symmetric ones for heads registered `Symmetric`.  A match
and the substitution of its bindings are inverse to each other in value, so a pass
with a rule whose two sides agree keeps the value of the target.
-/

/-- What numbers, variables, functions and powers stand for in a ring. -/
structure RingMeaning (table : Snapshot) (R : Type*) [CommRing R] where
  number : ℚ → R
  number_zero : number 0 = 0
  number_one : number 1 = 1
  variableValue : Symbol → R
  function : Symbol → List R → R
  power : R → R → R
  symmetric :
    ∀ {head : Symbol} {values others : List R},
      isSymmetric table head = true →
      values.Perm others →
      function head values = function head others

variable {table : Snapshot} {R : Type*} [CommRing R]

namespace RingMeaning

section Value

variable (meaning : RingMeaning table R)

mutual

/-- The value of an atom. -/
def value : AtomTree → R
  | .num number => meaning.number number
  | .var symbol => meaning.variableValue symbol
  | .add terms => (values terms).sum
  | .mul factors => (values factors).prod
  | .pow base exponent => meaning.power (value base) (value exponent)
  | .func head arguments => meaning.function head (values arguments)

/-- The values of some atoms. -/
def values : List AtomTree → List R
  | [] => []
  | tree :: rest => value tree :: values rest

end

end Value

end RingMeaning

/-- A value that a wildcard of this kind may have. -/
def BoundValue.OfKind : BoundValue → Option WildcardKind → Prop
  | .atom _, kind => kind = some .single
  | .sequence _, kind => kind = some .atLeastOne ∨ kind = some .anyCount

/-- Only wildcards are bound, each to what its kind allows. -/
def MatchBindings.WellKinded (table : Snapshot) (bindings : MatchBindings) : Prop :=
  ∀ symbol bound,
    bindings.lookup symbol = some bound →
    bound.OfKind (wildcardKind table symbol)

section Substitute

variable {bindings : MatchBindings}

end Substitute

/-- Binding one more wildcard within its kind keeps bindings well kinded. -/
theorem MatchBindings.WellKinded.cons
    {bindings : MatchBindings}
    (wellKinded : bindings.WellKinded table)
    {symbol : Symbol}
    {bound : BoundValue}
    (ofKind : bound.OfKind (wildcardKind table symbol)) :
    MatchBindings.WellKinded table ((symbol, bound) :: bindings) := by
  intro other value found
  rw [List.lookup_cons] at found
  split at found
  · rename_i same
    rw [beq_iff_eq] at same
    subst other
    cases found
    exact ofKind
  · exact wellKinded other value found

section Children

variable {good : MatchEvent → Prop}

end Children

/-- Both sides of the rule have one value under all bindings of wildcards. -/
def Rule.Valid (meaning : RingMeaning table R) (rule : Rule) : Prop :=
  ∀ bindings : MatchBindings,
    bindings.WellKinded table →
    ∀ left right,
      substitute table bindings rule.pattern = .ok left →
      substitute table bindings rule.replacement = .ok right →
      meaning.value left = meaning.value right

section ReplaceAll

variable {meaning : RingMeaning table R} {rule : Rule}

end ReplaceAll

/-- `y` and `x_`. -/
def squareTable : Snapshot :=
  tableOfNames ["y", "x_"]

/-- `x_ * x_ -> x_^2`. -/
def squareRule : Rule where
  pattern := .mul [.var ⟨1⟩, .var ⟨1⟩]
  replacement := .pow (.var ⟨1⟩) (.num 2)
  guard := none

end PatternCore
