import Stocas.Atom.Tree
import Stocas.SymbolTable.Table

namespace PatternCore

open AtomCore (AtomTree)
open SymbolTable (Snapshot Symbol Text)

/-!
# Wildcards and what they stand for

A symbol whose registered name ends in underscores is a wildcard.  A matcher
binds wildcards to atoms or lists of atoms; a substitution gives every wildcard
its atom or list, and `instantiate` puts them in place.
-/

/-- `WildcardKind`. -/
inductive WildcardKind where
  | single
  | atLeastOne
  | anyCount
  deriving Repr, DecidableEq

/-- `wildcard_kind`: the length of the run of underscores at the end. -/
def wildcardKind (table : Snapshot) (symbol : Symbol) : Option WildcardKind :=
  let name := SymbolTable.symbolName table symbol
  let trailing := (name.reverse.takeWhile fun character => character == '_').length
  if trailing = 0 then
    none
  else if trailing = 1 then
    some .single
  else if trailing = 2 then
    some .atLeastOne
  else
    some .anyCount

/-- `SequenceWildcard`. -/
structure SequenceWildcard where
  symbol : Symbol
  kind : WildcardKind
  deriving Repr, DecidableEq

/-- The test for a child that is a sequence wildcard. -/
def sequenceWildcard? (table : Snapshot) : AtomTree → Option SequenceWildcard
  | .var symbol =>
      match wildcardKind table symbol with
      | none | some .single => none
      | some kind => some ⟨symbol, kind⟩
  | _ => none

/-- `BoundValue`. -/
inductive BoundValue where
  | atom (bound : AtomTree)
  | sequence (bound : List AtomTree)
  deriving Repr, DecidableEq

/-- `MatchBindings`; only lookups and insertions of new keys are made. -/
abbrev MatchBindings : Type := List (Symbol × BoundValue)

/-- An atom and a list of atoms for every symbol. -/
structure Substitution where
  atom : Symbol → AtomTree
  sequence : Symbol → List AtomTree

namespace Substitution

/-- A wildcard for at least one atom has one. -/
def Legal (table : Snapshot) (substitution : Substitution) : Prop :=
  ∀ symbol,
    wildcardKind table symbol = some .atLeastOne →
    substitution.sequence symbol ≠ []

variable (table : Snapshot) (substitution : Substitution)

mutual

/-- Replace the wildcards of a pattern. -/
def instantiate : AtomTree → AtomTree
  | .num value => .num value
  | .var symbol =>
      match wildcardKind table symbol with
      | none => .var symbol
      | some _ => substitution.atom symbol
  | .add terms => .add (instantiateAll terms)
  | .mul factors => .mul (instantiateAll factors)
  | .pow base exponent => .pow (instantiate base) (instantiate exponent)
  | .func head arguments => .func head (instantiateAll arguments)

/-- The same for every child, with sequence wildcards spliced in place. -/
def instantiateAll : List AtomTree → List AtomTree
  | [] => []
  | child :: rest =>
      match sequenceWildcard? table child with
      | some wildcard =>
          substitution.sequence wildcard.symbol ++ instantiateAll rest
      | none => instantiate child :: instantiateAll rest

end

end Substitution

/-- Read bindings as a substitution; unbound wildcards stay as they are. -/
def MatchBindings.substitution (bindings : MatchBindings) : Substitution where
  atom := fun symbol =>
    match bindings.lookup symbol with
    | some (.atom bound) => bound
    | _ => .var symbol
  sequence := fun symbol =>
    match bindings.lookup symbol with
    | some (.sequence bound) => bound
    | _ => [.var symbol]

end PatternCore
