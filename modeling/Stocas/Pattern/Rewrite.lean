import Stocas.Library.Outcome
import Stocas.Pattern.Matcher

namespace PatternCore

open AtomCore (AtomTree)
open SymbolTable (Snapshot Symbol Text)

/-!
# Rewriting by a rule

A rule has a pattern, a replacement and perhaps a guard.  One pass over a target
rebuilds it from the leaves up and tries the rule on every rebuilt node.  Atoms are
the trees that the builders of the store deliver.
-/

/-- `is_wildcard`. -/
def isWildcard (table : Snapshot) (symbol : Symbol) : Bool :=
  (wildcardKind table symbol).isSome

/-- The exception for a sequence wildcard outside an argument list. -/
def misusedSequence (table : Snapshot) (symbol : Symbol) : MatchError :=
  .invalidArgument
    ("pattern_core::substitute: sequence wildcard '".toList ++
      SymbolTable.symbolName table symbol ++
      "' used in a non-sequence position".toList)

/-- The exception for a wildcard without a binding. -/
def unboundWildcard (table : Snapshot) (symbol : Symbol) : MatchError :=
  .invalidArgument
    ("pattern_core::substitute: replacement references wildcard '".toList ++
      SymbolTable.symbolName table symbol ++ "' that was never bound".toList)

/-- The list bound to a child that is a variable, if there is one. -/
def boundSequence? (bindings : MatchBindings) : AtomTree → Option (List AtomTree)
  | .var symbol =>
      match bindings.lookup symbol with
      | some (.sequence bound) => some bound
      | _ => none
  | _ => none

/-- The end of `substitute_impl` for sums: no child gives 0, one gives itself. -/
def collapseAdd : List AtomTree → AtomTree
  | [] => .num 0
  | [only] => only
  | children => AtomTree.mkAdd children

/-- The end of `substitute_impl` for products: no child gives 1, one gives itself. -/
def collapseMul : List AtomTree → AtomTree
  | [] => .num 1
  | [only] => only
  | children => AtomTree.mkMul children

section Substitute

variable (table : Snapshot) (bindings : MatchBindings)

/-- The case of a variable in `substitute_impl`. -/
def substituteVar (symbol : Symbol) : Except MatchError AtomTree :=
  match bindings.lookup symbol with
  | some (.atom bound) => .ok bound
  | some (.sequence _) => .error (misusedSequence table symbol)
  | none =>
      if isWildcard table symbol then
        .error (unboundWildcard table symbol)
      else
        .ok (.var symbol)

mutual

/-- `substitute_impl`. -/
def substitute : AtomTree → Except MatchError AtomTree
  | .num value => .ok (.num value)
  | .var symbol => substituteVar table bindings symbol
  | .pow base exponent => do
      let base ← substitute base
      let exponent ← substitute exponent
      .ok (.pow base exponent)
  | .add terms => (substituteAll terms).map collapseAdd
  | .mul factors => (substituteAll factors).map collapseMul
  | .func head arguments => (substituteAll arguments).map (.func head)

/-- The loop over the children, which splices bound lists. -/
def substituteAll : List AtomTree → Except MatchError (List AtomTree)
  | [] => .ok []
  | child :: rest =>
      match boundSequence? bindings child with
      | some bound => do
          let later ← substituteAll rest
          .ok (bound ++ later)
      | none => do
          let first ← substitute child
          let later ← substituteAll rest
          .ok (first :: later)

end

end Substitute

/-- `Rule`; a rule without a guard accepts every match. -/
structure Rule where
  pattern : AtomTree
  replacement : AtomTree
  guard : Option (MatchBindings → Bool)

/-- `!rule.guard || rule.guard(*bindings)`. -/
def Rule.accepts (rule : Rule) (bindings : MatchBindings) : Bool :=
  match rule.guard with
  | none => true
  | some guard => guard bindings

section ReplaceAll

variable (table : Snapshot) (rule : Rule)

/-- The end of `replace_all_impl`, on the rebuilt node. -/
def applyRule (rebuilt : AtomTree) : Except MatchError AtomTree := do
  match ← matchAtoms table rule.pattern rebuilt with
  | none => .ok rebuilt
  | some bindings =>
      if rule.accepts bindings then
        substitute table bindings rule.replacement
      else
        .ok rebuilt

mutual

/-- `replace_all_impl`. -/
def replaceAll : AtomTree → Except MatchError AtomTree
  | .num value => applyRule table rule (.num value)
  | .var symbol => applyRule table rule (.var symbol)
  | .pow base exponent => do
      let base ← replaceAll base
      let exponent ← replaceAll exponent
      applyRule table rule (.pow base exponent)
  | .add terms => do
      let terms ← replaceAllIn terms
      applyRule table rule (AtomTree.mkAdd terms)
  | .mul factors => do
      let factors ← replaceAllIn factors
      applyRule table rule (AtomTree.mkMul factors)
  | .func head arguments => do
      let arguments ← replaceAllIn arguments
      applyRule table rule (.func head arguments)

/-- The loop over the children. -/
def replaceAllIn : List AtomTree → Except MatchError (List AtomTree)
  | [] => .ok []
  | child :: rest => do
      let first ← replaceAll child
      let later ← replaceAllIn rest
      .ok (first :: later)

end

end ReplaceAll

end PatternCore
