import Stocas.Calculus.HookCalls
import Stocas.Calculus.SlotDerivative
import Stocas.Pattern.SlotRewrite

namespace CalculusCore

open AtomCore (AtomStore AtomTree StringHash)
open AtomCore.AtomStore (Built BuilderCall Extends add_built child_inside child_lt
  children_of_pow func_built invariant_empty mul_built num_built numValue?_tree pow_built
  tree_eq_byTag tree_of_num)
open GrowingState (Growth Stateful)
open PatternCore.Slots (Shows)
open RelatedOutcomes (Related)
open SymbolTable (Snapshot Symbol Text)

/-!
# The arena's derivatives and those of trees

What differentiation in the arena returns is a slot of the derivative of the slot's tree,
and it throws what the derivative of trees throws.  Either way the arena keeps its invariant
and every slot its tree.
-/

namespace Slots

section Follows

variable [StringHash]

/-- Arenas with their invariant, which only get longer. -/
def arenas : Growth AtomStore where
  good := AtomStore.Invariant
  grows := Extends
  refl := Extends.refl
  trans := Extends.trans

/-- Slots show a list of trees. -/
abbrev ShowAll (store : AtomStore) : List ℕ → List AtomTree → Prop :=
  List.Forall₂ (Shows store)

/-- A slot shows its tree in every later arena. -/
theorem later
    {store reached : AtomStore}
    (good : arenas.good store)
    (reachedGood : arenas.good reached)
    (grown : arenas.grows store reached)
    {slot : ℕ}
    {tree : AtomTree}
    (isShown : Shows store slot tree) :
    Shows reached slot tree :=
  isShown.grow (AtomStore.Invariant.wellFormed good)
    (AtomStore.Invariant.wellFormed reachedGood) grown

/-- The same for a list of slots. -/
theorem laterAll
    {store reached : AtomStore}
    (good : arenas.good store)
    (reachedGood : arenas.good reached)
    (grown : arenas.grows store reached)
    {slots : List ℕ}
    {trees : List AtomTree}
    (shown : ShowAll store slots trees) :
    ShowAll reached slots trees :=
  shown.imp fun _ _ isShown => later good reachedGood grown isShown

omit [StringHash] in
/-- Slots of the arena show their trees. -/
theorem showAll_map
    {store : AtomStore}
    {slots : List ℕ}
    (inside : ∀ slot ∈ slots, slot < store.nodes.length) :
    ShowAll store slots (slots.map store.tree) := by
  refine List.forall₂_map_right_iff.mpr (List.forall₂_same.mpr ?_)
  exact fun slot member => ⟨inside slot member, rfl⟩

omit [StringHash] in
/-- The slots show their trees. -/
theorem ShowAll.inside_and_map
    {store : AtomStore}
    {slots : List ℕ}
    {trees : List AtomTree}
    (shown : ShowAll store slots trees) :
    (∀ slot ∈ slots, slot < store.nodes.length) ∧ slots.map store.tree = trees := by
  induction shown with
  | nil =>
      exact ⟨nofun, rfl⟩
  | cons isShown _ inductionHypothesis =>
      refine ⟨?_, ?_⟩
      · intro slot member
        rcases List.mem_cons.mp member with rfl | member
        · exact isShown.inside
        · exact inductionHypothesis.1 slot member
      · rw [List.map_cons, isShown.tree_eq, inductionHypothesis.2]

omit [StringHash] in
/-- What is shown is the tree of the slot. -/
theorem outcome_of_related
    {store : AtomStore}
    {outcome : Except DerivativeError ℕ}
    {expected : Except DerivativeError AtomTree}
    (related : Related (Shows store) outcome expected) :
    outcome.map store.tree = expected := by
  cases related with
  | error error =>
      rfl
  | ok isShown =>
      exact congrArg Except.ok isShown.tree_eq

/-- A builder call follows its tree. -/
theorem follows_of_built
    {store : AtomStore}
    {call : AtomStore → ℕ × AtomStore}
    {tree : AtomTree}
    (built : Built store (call store) tree) :
    arenas.Follows Shows store
      (Stateful.perform call : StoreAction ℕ) (.ok tree) :=
  GrowingState.Growth.follows_perform built.invariant built.growth
    ⟨built.inside, built.tree_eq⟩

section Builders

variable {store : AtomStore} (good : arenas.good store)

include good

theorem num_follows (value : ℚ) :
    arenas.Follows Shows store (num value) (.ok (.num value)) :=
  follows_of_built (num_built good value)

theorem add_follows
    {terms : List ℕ}
    {trees : List AtomTree}
    (shown : ShowAll store terms trees) :
    arenas.Follows Shows store (add terms) (.ok (.mkAdd trees)) := by
  obtain ⟨inside, rfl⟩ := shown.inside_and_map
  exact follows_of_built (add_built good inside)

theorem mul_follows
    {factors : List ℕ}
    {trees : List AtomTree}
    (shown : ShowAll store factors trees) :
    arenas.Follows Shows store (mul factors) (.ok (.mkMul trees)) := by
  obtain ⟨inside, rfl⟩ := shown.inside_and_map
  exact follows_of_built (mul_built good inside)

theorem pow_follows
    {base exponent : ℕ}
    {baseTree exponentTree : AtomTree}
    (baseShown : Shows store base baseTree)
    (exponentShown : Shows store exponent exponentTree) :
    arenas.Follows Shows store (pow base exponent) (.ok (.pow baseTree exponentTree)) := by
  obtain ⟨baseInside, rfl⟩ := baseShown
  obtain ⟨exponentInside, rfl⟩ := exponentShown
  exact follows_of_built (pow_built good baseInside exponentInside)

theorem func_follows
    (head : Symbol)
    {arguments : List ℕ}
    {trees : List AtomTree}
    (shown : ShowAll store arguments trees) :
    arenas.Follows Shows store (func head arguments) (.ok (.func head trees)) := by
  obtain ⟨inside, rfl⟩ := shown.inside_and_map
  exact follows_of_built (func_built good head inside)

end Builders

/-- A hook that delivers what the hook on trees gives, on every arena. -/
def HookFollows
    (hook : DerivativeHook)
    (treeHook : CalculusCore.DerivativeHook) :
    Prop :=
  ∀ store arguments trees,
    arenas.good store →
    ShowAll store arguments trees →
    arenas.Follows ShowAll store (hook arguments) (treeHook trees)

/-- A hook of one argument follows when its partial derivative does. -/
theorem unaryHook_follows
    (name : Text)
    {partialOf : ℕ → StoreAction ℕ}
    {treePartialOf : AtomTree → AtomTree}
    (follows :
      ∀ store argument tree,
        arenas.good store →
        Shows store argument tree →
        arenas.Follows Shows store (partialOf argument) (.ok (treePartialOf tree))) :
    HookFollows (unaryHook name partialOf) (CalculusCore.unaryHook name treePartialOf) := by
  intro store arguments trees good shown
  cases shown with
  | nil =>
      exact Growth.follows_fail good _
  | cons isShown rest =>
      cases rest with
      | nil =>
          refine (follows store _ _ good isShown).step ?_
          intro reached derived reachedGood _ derivedShown
          exact Growth.follows_pure reachedGood (.cons derivedShown .nil)
      | cons _ _ =>
          exact Growth.follows_fail good _

section BuiltinHooks

variable (symbols : CalculusSymbols)

theorem sinHook_follows : HookFollows (sinHook symbols) (CalculusCore.sinHook symbols) :=
  unaryHook_follows _ fun _ _ _ good isShown =>
    func_follows good symbols.cos (.cons isShown .nil)

theorem expHook_follows : HookFollows (expHook symbols) (CalculusCore.expHook symbols) :=
  unaryHook_follows _ fun _ _ _ good isShown =>
    func_follows good symbols.exp (.cons isShown .nil)

theorem cosHook_follows : HookFollows (cosHook symbols) (CalculusCore.cosHook symbols) := by
  refine unaryHook_follows _ ?_
  intro store argument tree good isShown
  refine (func_follows good symbols.sin (.cons isShown .nil)).step ?_
  intro first sinArg firstGood _ sinShown
  refine (num_follows firstGood (-1)).step ?_
  intro second minusOne secondGood secondGrown minusShown
  exact mul_follows secondGood
    (.cons minusShown (.cons (later firstGood secondGood secondGrown sinShown) .nil))

theorem lnHook_follows : HookFollows lnHook CalculusCore.lnHook := by
  refine unaryHook_follows _ ?_
  intro store argument tree good isShown
  refine (num_follows good (-1)).step ?_
  intro reached minusOne reachedGood grown minusShown
  exact pow_follows reachedGood (later good reachedGood grown isShown) minusShown

theorem squareHook_follows : HookFollows squareHook CalculusCore.squareHook := by
  refine unaryHook_follows _ ?_
  intro store argument tree good isShown
  refine (num_follows good 2).step ?_
  intro reached two reachedGood grown twoShown
  exact mul_follows reachedGood
    (.cons twoShown (.cons (later good reachedGood grown isShown) .nil))

end BuiltinHooks

/-- The hooks of two registries follow each other, in order. -/
structure RegistryFollows
    (registry : HookRegistry)
    (trees : CalculusCore.HookRegistry) : Prop where
  installed : registry.builtinRegistered = trees.builtinRegistered
  hooks :
    List.Forall₂ (fun entry other => entry.1 = other.1 ∧ HookFollows entry.2 other.2)
      registry.hooks trees.hooks

namespace RegistryFollows

variable {registry : HookRegistry} {trees : CalculusCore.HookRegistry}

theorem set
    (follows : RegistryFollows registry trees)
    (head : Symbol)
    {hook : DerivativeHook}
    {treeHook : CalculusCore.DerivativeHook}
    (hookFollows : HookFollows hook treeHook) :
    RegistryFollows (registry.set head hook) (trees.set head treeHook) :=
  ⟨follows.installed, .cons ⟨rfl, hookFollows⟩ follows.hooks⟩

/-- A head has hooks that follow each other, or none in either registry. -/
theorem get
    (follows : RegistryFollows registry trees)
    (head : Symbol) :
    Option.Rel HookFollows (registry.get head) (trees.get head) := by
  obtain ⟨-, hooks⟩ := follows
  rw [HookRegistry.get, CalculusCore.HookRegistry.get]
  generalize registry.hooks = entries at hooks
  generalize trees.hooks = others at hooks
  induction hooks with
  | nil =>
      exact .none
  | @cons entry other _ _ isFollowed _ inductionHypothesis =>
      obtain ⟨entryHead, hook⟩ := entry
      obtain ⟨otherHead, treeHook⟩ := other
      obtain ⟨rfl, hookFollows⟩ := isFollowed
      rw [List.lookup_cons, List.lookup_cons]
      cases head == entryHead with
      | true =>
          exact .some hookFollows
      | false =>
          exact inductionHypothesis

/-- Installing the built-in hooks on both sides. -/
theorem ensureBuiltinHooksRegistered
    (follows : RegistryFollows registry trees)
    (symbols : CalculusSymbols) :
    RegistryFollows (registry.ensureBuiltinHooksRegistered symbols)
      (trees.ensureBuiltinHooksRegistered symbols) := by
  rw [HookRegistry.ensureBuiltinHooksRegistered,
    CalculusCore.HookRegistry.ensureBuiltinHooksRegistered, follows.installed]
  split
  · exact follows
  · have sinSet := follows.set symbols.sin (sinHook_follows symbols)
    have cosSet := sinSet.set symbols.cos (cosHook_follows symbols)
    have expSet := cosSet.set symbols.exp (expHook_follows symbols)
    have lnSet := expSet.set symbols.ln lnHook_follows
    exact ⟨rfl, lnSet.hooks⟩

end RegistryFollows

/-- A computation that differentiates the slots below a bound. -/
def FollowsDerivative
    (derive : ℕ → StoreAction ℕ)
    (bound : ℕ)
    (treeDerive : AtomTree → Except DerivativeError AtomTree) :
    Prop :=
  ∀ store slot tree,
    arenas.good store →
    Shows store slot tree →
    slot < bound →
    arenas.Follows Shows store (derive slot) (treeDerive tree)

/-- `is_zero` sees the number 0 of the tree. -/
theorem isZero_eq
    {store : AtomStore}
    (good : arenas.good store)
    {slot : ℕ}
    {tree : AtomTree}
    (isShown : Shows store slot tree) :
    isZero store slot = CalculusCore.isZero tree := by
  obtain ⟨inside, rfl⟩ := isShown
  have number := numValue?_tree (AtomStore.Invariant.wellFormed good) inside
  have treeIsZero :
      ∀ tree : AtomTree, CalculusCore.isZero tree = decide (tree.numValue? = some 0) := by
    intro tree
    cases tree <;> simp [CalculusCore.isZero, AtomTree.numValue?]
    rfl
  rw [treeIsZero, number, isZero]
  by_cases isNum : store.tag slot = .num
  · simp [isNum]
  · simp [isNum]

theorem exponentMinusOne_follows
    {store : AtomStore}
    (good : arenas.good store)
    {exponent : ℕ}
    {tree : AtomTree}
    (isShown : Shows store exponent tree) :
    arenas.Follows Shows store (exponentMinusOne exponent)
      (.ok (CalculusCore.exponentMinusOne tree)) := by
  have wellFormed := AtomStore.Invariant.wellFormed good
  have number := numValue?_tree wellFormed isShown.inside
  by_cases isNum : store.tag exponent = .num
  · have same : exponentMinusOne exponent store = num (store.asNum exponent - 1) store :=
      if_pos isNum
    have isTree : tree = .num (store.asNum exponent) :=
      isShown.tree_eq.symm.trans (tree_of_num wellFormed isShown.inside isNum)
    rw [isTree]
    exact (num_follows good _).of_eq same
  · have same :
        exponentMinusOne exponent store =
          (num (-1) >>= fun minusOne => add [exponent, minusOne]) store :=
      if_neg isNum
    rw [if_neg isNum, isShown.tree_eq] at number
    have lowered :
        CalculusCore.exponentMinusOne tree = .mkAdd [tree, .num (-1)] := by
      cases tree with
      | num value =>
          cases number
      | var | add | mul | pow | func =>
          rfl
    rw [lowered]
    refine Growth.Follows.of_eq ((num_follows good (-1)).step ?_) same
    intro reached minusOne reachedGood grown minusShown
    exact add_follows reachedGood
      (.cons (later good reachedGood grown isShown) (.cons minusShown .nil))

section Power

variable {symbols : CalculusSymbols} {store : AtomStore}
  {base exponent baseDerivative exponentDerivative : ℕ}
  {baseTree exponentTree baseDerivativeTree exponentDerivativeTree : AtomTree}

theorem powerRule_follows
    (good : arenas.good store)
    (baseShown : Shows store base baseTree)
    (exponentShown : Shows store exponent exponentTree)
    (derivativeShown : Shows store baseDerivative baseDerivativeTree) :
    arenas.Follows Shows store (powerRule base exponent baseDerivative)
      (.ok (.mkMul
        [exponentTree, .pow baseTree (CalculusCore.exponentMinusOne exponentTree),
          baseDerivativeTree])) := by
  refine (exponentMinusOne_follows good exponentShown).step ?_
  intro first lowered firstGood firstGrown loweredShown
  have baseFirst := later good firstGood firstGrown baseShown
  refine (pow_follows firstGood baseFirst loweredShown).step ?_
  intro second powerTerm secondGood secondGrown powerShown
  have grown := arenas.trans firstGrown secondGrown
  exact mul_follows secondGood
    (.cons (later good secondGood grown exponentShown)
      (.cons powerShown (.cons (later good secondGood grown derivativeShown) .nil)))

theorem exponentialRule_follows
    (good : arenas.good store)
    (baseShown : Shows store base baseTree)
    (exponentShown : Shows store exponent exponentTree)
    (baseDerivativeShown : Shows store baseDerivative baseDerivativeTree)
    (exponentDerivativeShown : Shows store exponentDerivative exponentDerivativeTree)
    (baseConstant : Bool) :
    arenas.Follows Shows store
      (exponentialRule symbols base exponent baseDerivative exponentDerivative baseConstant)
      (.ok
        (if baseConstant then
          .mkMul
            [.pow baseTree exponentTree, .func symbols.ln [baseTree], exponentDerivativeTree]
        else
          .mkMul
            [.pow baseTree exponentTree,
              .mkAdd
                [.mkMul [exponentDerivativeTree, .func symbols.ln [baseTree]],
                  .mkMul [exponentTree, baseDerivativeTree, .pow baseTree (.num (-1))]]])) := by
  refine (pow_follows good baseShown exponentShown).step ?_
  intro first powerTerm firstGood firstGrown powerShown
  refine
    (func_follows firstGood symbols.ln
      (.cons (later good firstGood firstGrown baseShown) .nil)).step ?_
  intro second lnBase secondGood secondGrown lnShown
  have toSecond := arenas.trans firstGrown secondGrown
  have powerSecond := later firstGood secondGood secondGrown powerShown
  have exponentDerivativeSecond := later good secondGood toSecond exponentDerivativeShown
  cases baseConstant with
  | true =>
      exact mul_follows secondGood
        (.cons powerSecond (.cons lnShown (.cons exponentDerivativeSecond .nil)))
  | false =>
      refine
        (mul_follows secondGood
          (.cons exponentDerivativeSecond (.cons lnShown .nil))).step ?_
      intro third term1 thirdGood thirdGrown term1Shown
      refine (num_follows thirdGood (-1)).step ?_
      intro fourth minusOne fourthGood fourthGrown minusShown
      have toThird := arenas.trans toSecond thirdGrown
      have toFourth := arenas.trans toThird fourthGrown
      refine
        (pow_follows fourthGood (later good fourthGood toFourth baseShown) minusShown).step ?_
      intro fifth baseInverse fifthGood fifthGrown inverseShown
      have toFifth := arenas.trans toFourth fifthGrown
      refine
        (mul_follows fifthGood
          (.cons (later good fifthGood toFifth exponentShown)
            (.cons (later good fifthGood toFifth baseDerivativeShown)
              (.cons inverseShown .nil)))).step ?_
      intro sixth term2 sixthGood sixthGrown term2Shown
      have fromThird := arenas.trans fourthGrown (arenas.trans fifthGrown sixthGrown)
      refine
        (add_follows sixthGood
          (.cons (later thirdGood sixthGood fromThird term1Shown)
            (.cons term2Shown .nil))).step ?_
      intro seventh inner seventhGood seventhGrown innerShown
      have fromSecond := arenas.trans thirdGrown (arenas.trans fromThird seventhGrown)
      exact mul_follows seventhGood
        (.cons (later secondGood seventhGood fromSecond powerSecond)
          (.cons innerShown .nil))

theorem powerCases_follows
    (good : arenas.good store)
    (baseShown : Shows store base baseTree)
    (exponentShown : Shows store exponent exponentTree)
    (baseDerivativeShown : Shows store baseDerivative baseDerivativeTree)
    (exponentDerivativeShown : Shows store exponentDerivative exponentDerivativeTree) :
    arenas.Follows Shows store
      (powerCases symbols base exponent baseDerivative exponentDerivative)
      (.ok (CalculusCore.derivativePow symbols baseTree exponentTree baseDerivativeTree
        exponentDerivativeTree)) := by
  have baseZero := isZero_eq good baseDerivativeShown
  have exponentZero := isZero_eq good exponentDerivativeShown
  have unfolded :
      powerCases symbols base exponent baseDerivative exponentDerivative store =
        if CalculusCore.isZero baseDerivativeTree &&
            CalculusCore.isZero exponentDerivativeTree then
          num 0 store
        else if CalculusCore.isZero exponentDerivativeTree then
          powerRule base exponent baseDerivative store
        else
          exponentialRule symbols base exponent baseDerivative exponentDerivative
            (CalculusCore.isZero baseDerivativeTree) store := by
    rw [powerCases, baseZero, exponentZero]
  rw [CalculusCore.derivativePow]
  by_cases bothZero :
      (CalculusCore.isZero baseDerivativeTree &&
        CalculusCore.isZero exponentDerivativeTree) = true
  · rw [if_pos bothZero] at unfolded ⊢
    exact (num_follows good 0).of_eq unfolded
  · rw [if_neg bothZero] at unfolded ⊢
    by_cases onlyExponent : CalculusCore.isZero exponentDerivativeTree = true
    · rw [if_pos onlyExponent] at unfolded ⊢
      exact (powerRule_follows good baseShown exponentShown baseDerivativeShown).of_eq
        unfolded
    · rw [if_neg onlyExponent] at unfolded ⊢
      exact (exponentialRule_follows good baseShown exponentShown baseDerivativeShown
        exponentDerivativeShown _).of_eq unfolded

end Power

section Loops

variable {table : Snapshot} {symbols : CalculusSymbols} {registry : HookRegistry}
  {trees : CalculusCore.HookRegistry} {variable_ : Symbol} {derive : ℕ → StoreAction ℕ}
  {bound : ℕ}

theorem derivativeAll_follows
    (follows :
      FollowsDerivative derive bound
        (CalculusCore.derivativeImpl table symbols trees variable_))
    {store : AtomStore}
    (good : arenas.good store)
    {children : List ℕ}
    {childTrees : List AtomTree}
    (shown : ShowAll store children childTrees)
    (below : ∀ child ∈ children, child < bound) :
    arenas.Follows ShowAll store (derivativeAll derive children)
      (CalculusCore.derivativeAll table symbols trees variable_ childTrees) := by
  induction children generalizing store childTrees with
  | nil =>
      cases shown
      exact Growth.follows_pure good .nil
  | cons child rest inductionHypothesis =>
      cases shown with
      | cons isShown restShown =>
          refine (follows store child _ good isShown (below child List.mem_cons_self)).bind ?_
          intro first derived derivedTree firstGood firstGrown derivedShown
          have restLater := laterAll good firstGood firstGrown restShown
          refine
            (inductionHypothesis firstGood restLater fun other member =>
              below other (List.mem_cons_of_mem child member)).bind ?_
          intro second others otherTrees secondGood secondGrown othersShown
          exact Growth.follows_pure secondGood
            (.cons (later firstGood secondGood secondGrown derivedShown) othersShown)

omit [StringHash] in
/-- The loop of `derivative_mul` differentiates a factor and goes on with the next one. -/
theorem map_productTerms_cons
    (before factors : List AtomTree)
    (factor : AtomTree) :
    (CalculusCore.derivativeAll table symbols trees variable_ (factor :: factors)).map
        (CalculusCore.productTerms before (factor :: factors)) =
      (do
        let derived ← CalculusCore.derivativeImpl table symbols trees variable_ factor
        ((CalculusCore.derivativeAll table symbols trees variable_ factors).map
          (CalculusCore.productTerms (before ++ [factor]) factors)).map
          (AtomTree.mkMul (derived :: (before ++ factors)) :: ·)) := by
  rw [CalculusCore.derivativeAll]
  cases CalculusCore.derivativeImpl table symbols trees variable_ factor with
  | error error =>
      rfl
  | ok derived =>
      cases CalculusCore.derivativeAll table symbols trees variable_ factors <;> rfl

/-- The product rule on slots delivers the terms of the product rule on trees. -/
theorem productTerms_follows
    (follows :
      FollowsDerivative derive bound
        (CalculusCore.derivativeImpl table symbols trees variable_))
    {store : AtomStore}
    (good : arenas.good store)
    {before factors : List ℕ}
    {beforeTrees factorTrees : List AtomTree}
    (beforeShown : ShowAll store before beforeTrees)
    (shown : ShowAll store factors factorTrees)
    (below : ∀ factor ∈ factors, factor < bound) :
    arenas.Follows ShowAll store (productTerms derive before factors)
      ((CalculusCore.derivativeAll table symbols trees variable_ factorTrees).map
        (CalculusCore.productTerms beforeTrees factorTrees)) := by
  induction factors generalizing store before beforeTrees factorTrees with
  | nil =>
      cases shown
      exact Growth.follows_pure good .nil
  | cons factor rest inductionHypothesis =>
      cases shown with
      | cons isShown restShown =>
          rw [map_productTerms_cons]
          refine
            (follows store factor _ good isShown (below factor List.mem_cons_self)).bind ?_
          intro first derived derivedTree firstGood firstGrown derivedShown
          have beforeFirst := laterAll good firstGood firstGrown beforeShown
          have restFirst := laterAll good firstGood firstGrown restShown
          refine
            (mul_follows firstGood
              (.cons derivedShown (List.rel_append beforeFirst restFirst))).step ?_
          intro second term secondGood secondGrown termShown
          have toSecond := arenas.trans firstGrown secondGrown
          have factorSecond := later good secondGood toSecond isShown
          refine
            (inductionHypothesis secondGood
              (List.rel_append (laterAll good secondGood toSecond beforeShown)
                (.cons factorSecond .nil))
              (laterAll good secondGood toSecond restShown)
              fun other member =>
                below other (List.mem_cons_of_mem factor member)).bind_map ?_
          intro third terms termTrees thirdGood thirdGrown termsShown
          exact Growth.follows_pure thirdGood
            (.cons (later secondGood thirdGood thirdGrown termShown) termsShown)

omit [StringHash] in
/-- The loop of `derivative_fun` does the same with the arguments. -/
theorem map_chainTerms_cons
    (outer argument : AtomTree)
    (partials arguments : List AtomTree) :
    (CalculusCore.derivativeAll table symbols trees variable_ (argument :: arguments)).map
        (List.zipWith (fun outer inner => AtomTree.mkMul [outer, inner])
          (outer :: partials)) =
      (do
        let inner ← CalculusCore.derivativeImpl table symbols trees variable_ argument
        ((CalculusCore.derivativeAll table symbols trees variable_ arguments).map
          (List.zipWith (fun outer inner => AtomTree.mkMul [outer, inner]) partials)).map
          (AtomTree.mkMul [outer, inner] :: ·)) := by
  rw [CalculusCore.derivativeAll]
  cases CalculusCore.derivativeImpl table symbols trees variable_ argument with
  | error error =>
      rfl
  | ok inner =>
      cases CalculusCore.derivativeAll table symbols trees variable_ arguments <;> rfl

/-- The chain rule on slots delivers the terms of the chain rule on trees. -/
theorem chainTerms_follows
    (follows :
      FollowsDerivative derive bound
        (CalculusCore.derivativeImpl table symbols trees variable_))
    {store : AtomStore}
    (good : arenas.good store)
    {partials arguments : List ℕ}
    {partialTrees argumentTrees : List AtomTree}
    (partialsShown : ShowAll store partials partialTrees)
    (shown : ShowAll store arguments argumentTrees)
    (sameLength : partials.length = arguments.length)
    (below : ∀ argument ∈ arguments, argument < bound) :
    arenas.Follows ShowAll store (chainTerms derive partials arguments)
      ((CalculusCore.derivativeAll table symbols trees variable_ argumentTrees).map
        (List.zipWith (fun outer inner => AtomTree.mkMul [outer, inner]) partialTrees)) := by
  induction arguments generalizing store partials partialTrees argumentTrees with
  | nil =>
      cases List.length_eq_zero_iff.mp sameLength
      cases partialsShown
      cases shown
      exact Growth.follows_pure good .nil
  | cons argument rest inductionHypothesis =>
      cases partialsShown with
      | nil =>
          cases sameLength
      | cons outerShown partialsShown =>
          cases shown with
          | cons isShown restShown =>
              rw [map_chainTerms_cons]
              refine
                (follows store argument _ good isShown
                  (below argument List.mem_cons_self)).bind ?_
              intro first inner innerTree firstGood firstGrown innerShown
              refine
                (mul_follows firstGood
                  (.cons (later good firstGood firstGrown outerShown)
                    (.cons innerShown .nil))).step ?_
              intro second term secondGood secondGrown termShown
              have toSecond := arenas.trans firstGrown secondGrown
              refine
                (inductionHypothesis secondGood
                  (laterAll good secondGood toSecond partialsShown)
                  (laterAll good secondGood toSecond restShown)
                  (Nat.succ.inj sameLength)
                  fun other member =>
                    below other (List.mem_cons_of_mem argument member)).bind_map ?_
              intro third terms termTrees thirdGood thirdGrown termsShown
              exact Growth.follows_pure thirdGood
                (.cons (later secondGood thirdGood thirdGrown termShown) termsShown)

omit [StringHash] in
/-- The end of `derivative_fun` on trees, as a sum unless there are no arguments. -/
theorem map_chainRule
    (partials arguments : List AtomTree) :
    (CalculusCore.derivativeAll table symbols trees variable_ arguments).map
        (chainRule partials) =
      if arguments.isEmpty then
        .ok (.num 0)
      else
        ((CalculusCore.derivativeAll table symbols trees variable_ arguments).map
          (List.zipWith (fun outer inner => AtomTree.mkMul [outer, inner]) partials)).map
          .mkAdd := by
  cases arguments with
  | nil =>
      rfl
  | cons argument arguments =>
      rw [CalculusCore.derivativeAll]
      cases CalculusCore.derivativeImpl table symbols trees variable_ argument with
      | error error =>
          rfl
      | ok inner =>
          cases CalculusCore.derivativeAll table symbols trees variable_ arguments <;> rfl

theorem derivativeFun_follows
    (registryFollows : RegistryFollows registry trees)
    (follows :
      FollowsDerivative derive bound
        (CalculusCore.derivativeImpl table symbols trees variable_))
    {store : AtomStore}
    (good : arenas.good store)
    (head : Symbol)
    {arguments : List ℕ}
    {argumentTrees : List AtomTree}
    (shown : ShowAll store arguments argumentTrees)
    (below : ∀ argument ∈ arguments, argument < bound) :
    arenas.Follows Shows store (derivativeFun table registry derive head arguments)
      (CalculusCore.derivativeImpl table symbols trees variable_
        (.func head argumentTrees)) := by
  have hooks := registryFollows.get head
  rw [derivativeFun, CalculusCore.derivativeImpl]
  generalize registry.get head = hook at hooks ⊢
  generalize trees.get head = treeHook at hooks ⊢
  cases hooks with
  | none =>
      exact Growth.follows_fail good _
  | some hookFollows =>
      refine (hookFollows store arguments argumentTrees good shown).bind ?_
      intro first partials partialTrees firstGood firstGrown partialsShown
      rw [← partialsShown.length_eq, ← shown.length_eq]
      by_cases different : partials.length ≠ arguments.length
      · rw [if_pos different, if_pos different]
        exact Growth.follows_fail firstGood _
      · rw [if_neg different, if_neg different, map_chainRule]
        have sameLength := not_not.mp different
        have shownFirst := laterAll good firstGood firstGrown shown
        cases shown with
        | nil =>
            exact num_follows firstGood 0
        | cons isShown restShown =>
            refine
              (chainTerms_follows follows firstGood partialsShown shownFirst sameLength
                below).bind_map ?_
            intro second terms termTrees secondGood secondGrown termsShown
            exact add_follows secondGood termsShown

theorem derivativeAdd_follows
    (follows :
      FollowsDerivative derive bound
        (CalculusCore.derivativeImpl table symbols trees variable_))
    {store : AtomStore}
    (good : arenas.good store)
    {children : List ℕ}
    {childTrees : List AtomTree}
    (shown : ShowAll store children childTrees)
    (below : ∀ child ∈ children, child < bound) :
    arenas.Follows Shows store (derivativeAdd derive children)
      (CalculusCore.derivativeImpl table symbols trees variable_ (.add childTrees)) := by
  rw [CalculusCore.derivativeImpl]
  refine (derivativeAll_follows follows good shown below).bind_map ?_
  intro reached terms termTrees reachedGood _ termsShown
  exact add_follows reachedGood termsShown

theorem derivativeMul_follows
    (follows :
      FollowsDerivative derive bound
        (CalculusCore.derivativeImpl table symbols trees variable_))
    {store : AtomStore}
    (good : arenas.good store)
    {children : List ℕ}
    {childTrees : List AtomTree}
    (shown : ShowAll store children childTrees)
    (below : ∀ child ∈ children, child < bound) :
    arenas.Follows Shows store (derivativeMul derive children)
      (CalculusCore.derivativeImpl table symbols trees variable_ (.mul childTrees)) := by
  have byLoop :
      CalculusCore.derivativeImpl table symbols trees variable_ (.mul childTrees) =
        ((CalculusCore.derivativeAll table symbols trees variable_ childTrees).map
          (CalculusCore.productTerms [] childTrees)).map .mkAdd := by
    rw [CalculusCore.derivativeImpl]
    cases CalculusCore.derivativeAll table symbols trees variable_ childTrees <;> rfl
  rw [byLoop]
  refine (productTerms_follows follows good .nil shown below).bind_map ?_
  intro reached terms termTrees reachedGood _ termsShown
  exact add_follows reachedGood termsShown

theorem derivativePow_follows
    (follows :
      FollowsDerivative derive bound
        (CalculusCore.derivativeImpl table symbols trees variable_))
    {store : AtomStore}
    (good : arenas.good store)
    {base exponent : ℕ}
    {baseTree exponentTree : AtomTree}
    (baseShown : Shows store base baseTree)
    (exponentShown : Shows store exponent exponentTree)
    (baseBelow : base < bound)
    (exponentBelow : exponent < bound) :
    arenas.Follows Shows store (derivativePow symbols derive base exponent)
      (CalculusCore.derivativeImpl table symbols trees variable_
        (.pow baseTree exponentTree)) := by
  rw [CalculusCore.derivativeImpl]
  refine (follows store base _ good baseShown baseBelow).bind ?_
  intro first baseDerivative _ firstGood firstGrown baseDerivativeShown
  have exponentFirst := later good firstGood firstGrown exponentShown
  refine (follows first exponent _ firstGood exponentFirst exponentBelow).bind ?_
  intro second exponentDerivative _ secondGood secondGrown exponentDerivativeShown
  have toSecond := arenas.trans firstGrown secondGrown
  exact powerCases_follows secondGood (later good secondGood toSecond baseShown)
    (later good secondGood toSecond exponentShown)
    (later firstGood secondGood secondGrown baseDerivativeShown) exponentDerivativeShown

variable (table symbols variable_) in
/-- With fuel for its depth, `derivative_impl` delivers the derivative of the tree. -/
theorem derivativeFuel_follows
    (registryFollows : RegistryFollows registry trees)
    (fuel : ℕ) :
    FollowsDerivative (derivativeFuel table symbols registry variable_ fuel) fuel
      (CalculusCore.derivativeImpl table symbols trees variable_) := by
  induction fuel with
  | zero =>
      intro store slot tree _ _ isZero
      exact absurd isZero (Nat.not_lt_zero slot)
  | succ fuel inductionHypothesis =>
      rintro store slot _ good ⟨inside, rfl⟩ enough
      have wellFormed := AtomStore.Invariant.wellFormed good
      have upTo : slot ≤ fuel := Nat.le_of_lt_succ enough
      have childBound : ∀ child ∈ store.children slot, child < fuel :=
        fun child member => (child_lt wellFormed inside member).trans_le upTo
      have childrenShown :
          ShowAll store (store.children slot) ((store.children slot).map store.tree) :=
        showAll_map fun child member => child_inside wellFormed inside member
      have isTree := tree_eq_byTag wellFormed inside
      cases kind : store.tag slot with
      | num =>
          simp only [kind] at isTree
          rw [isTree]
          refine (num_follows good 0).of_eq ?_
          simp only [derivativeFuel, kind]
      | var =>
          simp only [kind] at isTree
          rw [isTree]
          refine
            (num_follows good (if store.symbolOf slot = variable_ then 1 else 0)).of_eq ?_
          simp only [derivativeFuel, kind]
      | add =>
          simp only [kind] at isTree
          rw [isTree]
          refine
            (derivativeAdd_follows inductionHypothesis good childrenShown childBound).of_eq ?_
          simp only [derivativeFuel, kind]
      | mul =>
          simp only [kind] at isTree
          rw [isTree]
          refine
            (derivativeMul_follows inductionHypothesis good childrenShown childBound).of_eq ?_
          simp only [derivativeFuel, kind]
      | pow =>
          obtain ⟨base, exponent, pair, baseBelow, exponentBelow⟩ :=
            children_of_pow wellFormed inside kind
          simp only [kind, pair, List.map_cons, List.getD_cons_zero,
            List.getD_cons_succ] at isTree
          rw [isTree]
          have baseShown : Shows store base (store.tree base) :=
            ⟨baseBelow.trans inside, rfl⟩
          have exponentShown : Shows store exponent (store.tree exponent) :=
            ⟨exponentBelow.trans inside, rfl⟩
          refine
            (derivativePow_follows inductionHypothesis good baseShown exponentShown
              (baseBelow.trans_le upTo) (exponentBelow.trans_le upTo)).of_eq ?_
          simp only [derivativeFuel, kind, pair, List.getD_cons_zero, List.getD_cons_succ]
      | func =>
          simp only [kind] at isTree
          rw [isTree]
          refine
            (derivativeFun_follows registryFollows inductionHypothesis good
              (store.symbolOf slot) childrenShown childBound).of_eq ?_
          simp only [derivativeFuel, kind]

end Loops

/--
What a process can do with one store, beside the registry of the hooks on trees: build
atoms, register hooks that follow a hook on trees, and differentiate.
-/
inductive Runs
    (table : Snapshot)
    (symbols : CalculusSymbols) :
    Session → CalculusCore.HookRegistry → Prop where
  | start : Runs table symbols { store := .empty, registry := .fresh } .fresh
  | build
      {session : Session}
      {trees : CalculusCore.HookRegistry}
      (earlier : Runs table symbols session trees)
      (call : BuilderCall)
      (legal : call.Legal session.store) :
      Runs table symbols { session with store := call.step session.store } trees
  | registerDerivativeHook
      {session : Session}
      {trees : CalculusCore.HookRegistry}
      (earlier : Runs table symbols session trees)
      (head : Symbol)
      {hook : DerivativeHook}
      {treeHook : CalculusCore.DerivativeHook}
      (follows : HookFollows hook treeHook) :
      Runs table symbols { session with registry := session.registry.set head hook }
        (trees.set head treeHook)
  | derivative
      {session : Session}
      {trees : CalculusCore.HookRegistry}
      (earlier : Runs table symbols session trees)
      (slot : ℕ)
      (inside : slot < session.store.nodes.length)
      (variable_ : Symbol) :
      Runs table symbols (derivative table symbols session slot variable_).2
        (CalculusCore.derivative table symbols trees (session.store.tree slot) variable_).2

/-- What a call leaves behind, whether it returns or throws. -/
structure Delivers
    (session : Session)
    (result : Except DerivativeError ℕ × Session)
    (expected : Except DerivativeError AtomTree) : Prop where
  /-- The arena still represents canonical trees, each by one slot. -/
  invariant : result.2.store.Invariant
  /-- No slot that existed has changed its tree. -/
  stable :
    ∀ index < session.store.nodes.length,
      index < result.2.store.nodes.length ∧
        result.2.store.tree index = session.store.tree index
  /-- What is returned is a slot. -/
  inside : ∀ slot, result.1 = .ok slot → slot < result.2.store.nodes.length
  /-- The slot has the expected tree, or the exception is the expected one. -/
  outcome : result.1.map result.2.store.tree = expected

section Sessions

variable {table : Snapshot} {symbols : CalculusSymbols} {session : Session}
  {trees : CalculusCore.HookRegistry}

/-- One call, in a session with its registry of hooks on trees. -/
theorem derivative_follows
    (good : arenas.good session.store)
    (registryFollows : RegistryFollows session.registry trees)
    {slot : ℕ}
    (inside : slot < session.store.nodes.length)
    (variable_ : Symbol) :
    arenas.Follows Shows session.store
      (derivativeImpl table symbols
        (session.registry.ensureBuiltinHooksRegistered symbols) slot variable_)
      (CalculusCore.derivative table symbols trees (session.store.tree slot) variable_).1 :=
  derivativeFuel_follows table symbols variable_
    (registryFollows.ensureBuiltinHooksRegistered symbols) (slot + 1) session.store slot _
    good ⟨inside, rfl⟩ (Nat.lt_succ_self slot)

/-- In every session the arena keeps its invariant and the registries belong together. -/
theorem Runs.follows (ran : Runs table symbols session trees) :
    session.store.Invariant ∧ RegistryFollows session.registry trees := by
  induction ran with
  | start =>
      exact ⟨invariant_empty, rfl, .nil⟩
  | build _ call legal inductionHypothesis =>
      obtain ⟨good, registryFollows⟩ := inductionHypothesis
      exact ⟨(BuilderCall.perform_built good legal).invariant,
        registryFollows.installed, registryFollows.hooks⟩
  | registerDerivativeHook _ head follows inductionHypothesis =>
      obtain ⟨good, registryFollows⟩ := inductionHypothesis
      exact ⟨good, registryFollows.set head follows⟩
  | derivative _ slot inside variable_ inductionHypothesis =>
      obtain ⟨good, registryFollows⟩ := inductionHypothesis
      exact ⟨(derivative_follows good registryFollows inside variable_).good,
        registryFollows.ensureBuiltinHooksRegistered symbols⟩

/--
In every session, `derivative` on a slot returns a slot of the derivative of its tree, or
throws what the derivative of the tree throws; either way the arena keeps its invariant and
every slot its tree.
-/
theorem derivative_delivers
    (ran : Runs table symbols session trees)
    {slot : ℕ}
    (inside : slot < session.store.nodes.length)
    (variable_ : Symbol) :
    Delivers session (derivative table symbols session slot variable_)
      (CalculusCore.derivative table symbols trees (session.store.tree slot) variable_).1 := by
  obtain ⟨good, registryFollows⟩ := ran.follows
  have follows :=
    @derivative_follows _ table symbols session trees good registryFollows slot inside
      variable_
  refine
    { invariant := follows.good
      stable := ?_
      inside := ?_
      outcome := ?_ }
  · intro index old
    exact ⟨Extends.inside follows.grown old,
      Extends.tree follows.grown (AtomStore.Invariant.wellFormed good)
        (AtomStore.Invariant.wellFormed follows.good) old⟩
  · intro result returned
    have related := follows.related
    rw [show (derivativeImpl table symbols _ slot variable_ session.store).1 = .ok result
      from returned] at related
    obtain ⟨_, _, isShown⟩ := related.ok_of
    exact isShown.inside
  · exact outcome_of_related follows.related

omit [StringHash] in
/--
The derivative of `square(sin(x))` with a caller's hook for `square`, and a hash that puts
everything into one bucket.
-/
theorem derivative_delivers_square :
    ∃ (_ : StringHash) (session : Session),
      session.store.tree 2 = .func ⟨5⟩ [.func ⟨0⟩ [.var ⟨4⟩]] ∧
        Delivers session (derivative .empty ⟨⟨0⟩, ⟨1⟩, ⟨2⟩, ⟨3⟩⟩ session 2 ⟨4⟩)
          (.ok
            (.add
              [.mul
                [.num 2, .add [.mul [.num 1, .func ⟨1⟩ [.var ⟨4⟩]]],
                  .func ⟨0⟩ [.var ⟨4⟩]]])) := by
  let constant : StringHash := ⟨fun _ => 0⟩
  refine ⟨constant, ?_⟩
  obtain ⟨session, ran, inside, isCall⟩ :
      ∃ session : Session,
        Runs .empty ⟨⟨0⟩, ⟨1⟩, ⟨2⟩, ⟨3⟩⟩ session
            (CalculusCore.HookRegistry.fresh.set ⟨5⟩ CalculusCore.squareHook) ∧
          2 < session.store.nodes.length ∧
          session.store.tree 2 = .func ⟨5⟩ [.func ⟨0⟩ [.var ⟨4⟩]] := by
    refine ⟨_, (((Runs.start.registerDerivativeHook ⟨5⟩ squareHook_follows).build
      (.var ⟨4⟩) ?_).build (.func ⟨0⟩ [0]) ?_).build (.func ⟨5⟩ [1]) ?_, ?_, ?_⟩
    all_goals decide +kernel
  have delivers := derivative_delivers ran inside ⟨4⟩
  have expected :
      (CalculusCore.derivative .empty ⟨⟨0⟩, ⟨1⟩, ⟨2⟩, ⟨3⟩⟩
          (CalculusCore.HookRegistry.fresh.set ⟨5⟩ CalculusCore.squareHook)
          (.func ⟨5⟩ [.func ⟨0⟩ [.var ⟨4⟩]]) ⟨4⟩).1 =
        .ok
          (.add
            [.mul
              [.num 2, .add [.mul [.num 1, .func ⟨1⟩ [.var ⟨4⟩]]],
                .func ⟨0⟩ [.var ⟨4⟩]]]) := by
    decide +kernel
  rw [isCall, expected] at delivers
  exact ⟨session, isCall, delivers⟩

end Sessions

end Follows

end Slots

end CalculusCore
