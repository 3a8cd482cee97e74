import Stocas.Atom.Builders
import Stocas.Atom.NormalizeStore
import Stocas.Library.Bracketing

namespace AtomCore

open Bracketing (Splices leaves leavesOf value value_apply values values_congr)
open Transition (run EveryStep)

/-!
# Regrouping sums and products

`add` and `mul` may be nested over the same atoms in many ways and orders.  On trees a
nested call is the one call with all the operands; the arena has one slot for each tree,
so every way of making the calls returns the same slot.
-/

namespace AtomTree

/-- Sums of trees splice nested sums. -/
theorem splices_mkAdd : Splices mkAdd (operandsOf .add) where
  parts_combine := perm_variadicChildren .add
  combine_congr := fun _ _ same => congrArg AtomTree.add (variadicChildren_congr same)

/-- Products of trees splice nested products. -/
theorem splices_mkMul : Splices mkMul (operandsOf .mul) where
  parts_combine := perm_variadicChildren .mul
  combine_congr := fun _ _ same => congrArg AtomTree.mul (variadicChildren_congr same)

end AtomTree

namespace AtomStore

open BuilderCall (step Legal)

section Nested

variable (build : AtomStore → List Nat → Nat × AtomStore)

mutual

/-- Nested calls of a builder over slots; operands are built from left to right. -/
def buildNested (store : AtomStore) : Bracketing Nat → Nat × AtomStore
  | .leaf slot => (slot, store)
  | .apply operands =>
      let (slots, grown) := buildOperands store operands
      build grown slots

/-- The operands of a call. -/
def buildOperands (store : AtomStore) : List (Bracketing Nat) → List Nat × AtomStore
  | [] => ([], store)
  | operand :: rest =>
      let (slot, grown) := buildNested store operand
      let (slots, grown) := buildOperands grown rest
      (slot :: slots, grown)

end

end Nested

/-- What a nesting of calls returns when the same operands are given in one call. -/
structure Regrouped
    (tag : AtomTag)
    (store : AtomStore)
    (operands : List Nat)
    (slot : Nat)
    (grown : AtomStore) : Prop where
  tag_eq : grown.tag slot = tag
  /-- The children are the operands, with nested nodes of the tag spliced. -/
  children : (grown.children slot).Perm (store.flattenOperands operands tag)

section Builders

variable [StringHash]

/--
The builder is associative and commutative up to identity of slots: two nestings of
calls over the same operands, in any order and with any legal builder calls in between,
return one slot.
-/
def AssociativeCommutative
    (build : AtomStore → List Nat → Nat × AtomStore)
    (tag : AtomTag)
    (store : AtomStore)
    (operands : List Nat) : Prop :=
  ∀ first second : Bracketing Nat,
    first.Proper →
    second.Proper →
    first.leaves.Perm operands →
    second.leaves.Perm operands →
    ∀ between,
      EveryStep step Legal (buildNested build store first).2 between →
      let (slot, grown) := buildNested build store first
      (buildNested build (run step grown between) second).1 = slot ∧
        (2 ≤ operands.length → Regrouped tag store operands slot grown)

variable {build : AtomStore → List Nat → Nat × AtomStore} {combine : List AtomTree → AtomTree}

mutual

/-- Nested calls deliver the nested trees. -/
theorem buildNested_built
    (delivers :
      ∀ {store : AtomStore} {result : List Nat × AtomStore} {trees : List AtomTree},
        BuiltAll store result trees →
        Built store (build result.2 result.1) (combine trees))
    {store : AtomStore}
    (invariant : store.Invariant) :
    ∀ bracketing : Bracketing Nat,
      (∀ slot ∈ bracketing.leaves, slot < store.nodes.length) →
      Built store (buildNested build store bracketing)
        (bracketing.value combine store.tree)
  | .leaf slot, inside => by
      rw [buildNested, value]
      apply built_self invariant
      exact inside slot (by rw [leaves]; exact List.mem_singleton.mpr rfl)
  | .apply operands, inside => by
      rw [buildNested, value]
      exact delivers (buildOperands_built delivers invariant operands inside)

/-- The operands of a call are delivered. -/
theorem buildOperands_built
    (delivers :
      ∀ {store : AtomStore} {result : List Nat × AtomStore} {trees : List AtomTree},
        BuiltAll store result trees →
        Built store (build result.2 result.1) (combine trees))
    {store : AtomStore}
    (invariant : store.Invariant) :
    ∀ operands : List (Bracketing Nat),
      (∀ slot ∈ leavesOf operands, slot < store.nodes.length) →
      BuiltAll store (buildOperands build store operands)
        (values combine store.tree operands)
  | [], _ => by
      rw [buildOperands, values]
      exact builtAll_nil invariant
  | operand :: rest, inside => by
      rw [leavesOf] at inside
      obtain ⟨here, later⟩ := List.forall_mem_append.mp inside
      have first := buildNested_built delivers invariant operand here
      have laterInside :
          ∀ slot ∈ leavesOf rest, slot < (buildNested build store operand).2.nodes.length :=
        fun slot member => first.growth.inside (later slot member)
      have sameTrees :
          values combine (buildNested build store operand).2.tree rest =
            values combine store.tree rest :=
        values_congr rest fun slot member => first.tree_old invariant (later slot member)
      have following := buildOperands_built delivers first.invariant rest laterInside
      rw [sameTrees] at following
      rw [buildOperands, values]
      exact first.cons following

end

/-- Slots with the same multiset of trees are the same multiset. -/
theorem perm_of_map_tree
    {store : AtomStore}
    (invariant : store.Invariant)
    {slots others : List Nat}
    (inside : ∀ slot ∈ slots, slot < store.nodes.length)
    (othersInside : ∀ slot ∈ others, slot < store.nodes.length)
    (same : (slots.map store.tree).Perm (others.map store.tree)) :
    slots.Perm others := by
  have injective : Set.InjOn store.tree {slot | slot < store.nodes.length} :=
    fun _ firstInside _ secondInside => invariant.tree_injective firstInside secondInside
  have back :
      ∀ list : List Nat,
        (∀ slot ∈ list, slot < store.nodes.length) →
        (list.map store.tree).map
          (Function.invFunOn store.tree {slot | slot < store.nodes.length}) = list := by
    intro list listInside
    calc
      _ = list.map id := by
        rw [List.map_map]
        exact List.map_congr_left fun slot member =>
          injective.leftInvOn_invFunOn (listInside slot member)
      _ = list := List.map_id list
  rw [← back slots inside, ← back others othersInside]
  exact same.map _

/-- The node over nested operands has the spliced operands as its children. -/
theorem regrouped_of_built
    {tag : AtomTag}
    (splices : Splices combine (AtomTree.operandsOf tag))
    (tagged : ∀ trees, (combine trees).tag = tag)
    {store : AtomStore}
    (invariant : store.Invariant)
    {operands : List Nat}
    (inside : ∀ operand ∈ operands, operand < store.nodes.length)
    {result : Nat × AtomStore}
    (built : Built store result (combine (operands.map store.tree))) :
    Regrouped tag store operands result.1 result.2 where
  tag_eq := by
    rw [← tag_tree built.invariant.wellFormed built.inside, built.tree_eq, tagged]
  children := by
    have childrenInside :
        ∀ child ∈ result.2.children result.1, child < result.2.nodes.length :=
      fun child member => child_inside built.invariant.wellFormed built.inside member
    have flatInside :
        ∀ child ∈ store.flattenOperands operands tag, child < store.nodes.length :=
      fun child member => flattenOperands_inside invariant.wellFormed inside member
    apply perm_of_map_tree built.invariant childrenInside
      (fun child member => built.growth.inside (flatInside child member))
    rw [built.growth.map_tree invariant built.invariant flatInside,
      map_flattenOperands invariant.wellFormed inside,
      ← children_tree built.invariant.wellFormed built.inside, built.tree_eq]
    have spliced := splices.parts_combine (operands.map store.tree)
    rwa [AtomTree.operandsOf, if_pos (tagged _)] at spliced

/-- A builder whose trees splice is associative and commutative up to identity of slots. -/
theorem associativeCommutative_of_splices
    (delivers :
      ∀ {store : AtomStore} {result : List Nat × AtomStore} {trees : List AtomTree},
        BuiltAll store result trees →
        Built store (build result.2 result.1) (combine trees))
    {tag : AtomTag}
    (splices : Splices combine (AtomTree.operandsOf tag))
    (tagged : ∀ trees, (combine trees).tag = tag)
    {store : AtomStore}
    (invariant : store.Invariant)
    {operands : List Nat}
    (inside : ∀ operand ∈ operands, operand < store.nodes.length) :
    AssociativeCommutative build tag store operands := by
  intro first second firstProper secondProper firstOrder secondOrder between legal
  have firstInside : ∀ slot ∈ first.leaves, slot < store.nodes.length :=
    fun slot member => inside slot (firstOrder.mem_iff.mp member)
  have secondInside : ∀ slot ∈ second.leaves, slot < store.nodes.length :=
    fun slot member => inside slot (secondOrder.mem_iff.mp member)
  have firstBuilt := buildNested_built delivers invariant first firstInside
  obtain ⟨middleInvariant, middleGrowth⟩ := run_preserves firstBuilt.invariant legal
  have growth := firstBuilt.growth.trans middleGrowth
  have secondBuilt := buildNested_built delivers middleInvariant second
    fun slot member => growth.inside (secondInside slot member)
  refine ⟨?_, fun two => ?_⟩
  · apply secondBuilt.invariant.tree_injective secondBuilt.inside
      (secondBuilt.growth.inside (middleGrowth.inside firstBuilt.inside))
    rw [secondBuilt.tree_eq,
      (middleGrowth.trans secondBuilt.growth).tree firstBuilt.invariant.wellFormed
        secondBuilt.invariant.wellFormed firstBuilt.inside, firstBuilt.tree_eq]
    have sameTrees :
        second.value combine (run step (buildNested build store first).2 between).tree =
          second.value combine store.tree :=
      Bracketing.value_congr second fun slot member =>
        growth.tree invariant.wellFormed middleInvariant.wellFormed (secondInside slot member)
    rw [sameTrees]
    exact secondProper.value_eq splices firstProper (secondOrder.trans firstOrder.symm) _
  · apply regrouped_of_built splices tagged invariant inside
    cases first with
    | leaf only =>
        have single := firstOrder.length_eq
        rw [leaves, List.length_singleton] at single
        rw [← single] at two
        exact absurd two (Nat.not_succ_le_self 1)
    | apply nested =>
        rw [value_apply splices firstOrder] at firstBuilt
        exact firstBuilt

/--
`add` and `mul` are associative and commutative up to identity of slots, over any atoms
of an arena that builder calls have filled.
-/
theorem add_mul_associativeCommutative
    {store : AtomStore}
    (reachable : store.Reachable)
    {operands : List Nat}
    (inside : ∀ operand ∈ operands, operand < store.nodes.length) :
    AssociativeCommutative add .add store operands ∧
      AssociativeCommutative mul .mul store operands :=
  ⟨associativeCommutative_of_splices (fun built => built.add) AtomTree.splices_mkAdd
      (fun _ => rfl) reachable.invariant inside,
    associativeCommutative_of_splices (fun built => built.mul) AtomTree.splices_mkMul
      (fun _ => rfl) reachable.invariant inside⟩

omit [StringHash] in
/-- Two, `x + y` and `x` again, with a hash that puts everything into one bucket. -/
theorem add_mul_associativeCommutative_three :
    let constant : StringHash := ⟨fun _ => 0⟩
    let store := run (@step constant) empty [.var ⟨0⟩, .var ⟨1⟩, .num 2, .add [0, 1]]
    @AssociativeCommutative constant (@add constant) .add store [2, 3, 0] ∧
      @AssociativeCommutative constant (@mul constant) .mul store [2, 3, 0] := by
  refine @add_mul_associativeCommutative ⟨fun _ => 0⟩ _ ⟨_, ?_, rfl⟩ _ ?_
  · simp only [Transition.everyStep_cons]
    refine ⟨?_, ?_, ?_, ?_, Transition.everyStep_nil⟩
    · decide
    · decide
    · decide
    · decide +kernel
  · decide +kernel

end Builders

end AtomStore

end AtomCore
