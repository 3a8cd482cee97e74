import Stocas.Program.Calls

namespace Program

open AtomCore (AtomStore AtomTree StringHash)
open AtomCore.AtomStore (Built Extends)
open CalculusCore (CalculusSymbols)
open CalculusCore.Slots (RegistryFollows ShowAll arenas)
open PatternCore (Rule)
open PatternCore.Slots (RewriteError Shows)
open RelatedOutcomes (Related)
open SymbolTable (Snapshot Symbol)

/-!
# Programs on the store compute what they compute on trees

The step lemma goes through the calls, each by what its operation delivers, and the run
lemma follows.  What a program can see of its atoms, whether they are the same slot and
which comes first, it sees of the expressions.
-/

section Refinement

variable [StringHash]

/-- The process holds these expressions, each of them in the slot at its position. -/
structure Represents (process : Process) (expressions : Expressions) : Prop where
  invariant : process.store.Invariant
  atoms : ShowAll process.store process.atoms expressions.trees
  table : process.table = expressions.table
  registry : RegistryFollows process.registry expressions.registry

section Fetch

variable {α β : Type} {related : α → β → Prop} {atoms : List α} {others : List β}

end Fetch

section Step

variable {symbols : CalculusSymbols} {process : Process} {expressions : Expressions}

/-- A slot of the tree is returned on one side and the tree on the other. -/
theorem Represents.deliver
    (represents : Represents process expressions)
    {result : ℕ × AtomStore}
    {tree : AtomTree}
    (built : Built process.store result tree) :
    Represents (process.deliver result) (expressions.deliver tree) where
  invariant := built.invariant
  atoms := by
    refine List.rel_append ?_ (.cons ⟨built.inside, built.tree_eq⟩ .nil)
    exact CalculusCore.Slots.laterAll represents.invariant built.invariant built.growth
      represents.atoms
  table := represents.table
  registry := represents.registry

end Step

variable {process : Process} {expressions : Expressions}

/-- A caller's hook for a function that squares. -/
def squareHook : FaithfulHook where
  onSlots := CalculusCore.Slots.squareHook
  onTrees := CalculusCore.squareHook
  follows := CalculusCore.Slots.squareHook_follows

end Refinement

end Program
