import Stocas.Atom.NormalizeStore
import Stocas.Atom.Tidy

namespace AtomCore

/-!
# When normalizing twice is normalizing once

Collection looks at the operands it is given, but its pieces go through a
builder that splices nested nodes, and a piece may carry a new coefficient into
a product that had one.  In a tidy atom neither happens.
-/

namespace AtomStore

section Idempotence

variable [StringHash]

open BuilderCall (step Legal)
open Transition (run EveryStep)

/-- Normalizing what was built gives its slot again exactly when its tree is normal. -/
theorem Built.normalize_eq_iff
    {store : AtomStore}
    {result : Nat × AtomStore}
    {tree : AtomTree}
    (built : Built store result tree) :
    (result.2.normalize result.1).1 = result.1 ↔ tree.Normal := by
  have again := normalize_built built.invariant built.inside
  have againTree := again.tree_eq
  have builtTree := again.tree_old built.invariant built.inside
  have canonical := built.invariant.canonical result.1 built.inside
  rw [built.tree_eq] at againTree builtTree canonical
  rw [← AtomTree.normalize_eq_self_iff canonical, ← againTree, ← builtTree]
  constructor
  · intro same
    rw [same, builtTree]
  · intro same
    exact again.invariant.tree_injective again.inside (again.growth.inside built.inside) same

end Idempotence

end AtomStore

end AtomCore
