import Stocas.Atom.Store
import Stocas.Calculus.Derivative
import Stocas.Library.GrowingState

namespace CalculusCore

open AtomCore (AtomStore StringHash)
open GrowingState (Stateful)
open SymbolTable (Snapshot Symbol Text)

/-!
# Differentiation in the arena

`derivative` reads slots, builds in the same arena and calls hooks that do the same.  A call
that throws leaves what it has built behind.
-/

namespace Slots

section Algorithm

variable [StringHash]

/-- A computation on the store, which keeps what it has built when it throws. -/
abbrev StoreAction (α : Type) : Type :=
  Stateful DerivativeError AtomStore α

/-- `AtomStore::num`. -/
def num (value : ℚ) : StoreAction ℕ :=
  .perform fun store => store.num value

/-- `AtomStore::add`. -/
def add (terms : List ℕ) : StoreAction ℕ :=
  .perform fun store => store.add terms

/-- `AtomStore::mul`. -/
def mul (factors : List ℕ) : StoreAction ℕ :=
  .perform fun store => store.mul factors

/-- `AtomStore::pow`. -/
def pow (base exponent : ℕ) : StoreAction ℕ :=
  .perform fun store => store.pow base exponent

/-- `AtomStore::fun`. -/
def func (head : Symbol) (arguments : List ℕ) : StoreAction ℕ :=
  .perform fun store => store.func head arguments

/-- `DerivativeHook`: slots of the partial derivatives, from the slots of the arguments. -/
abbrev DerivativeHook : Type :=
  List ℕ → StoreAction (List ℕ)

/-- A hook for functions of one argument. -/
def unaryHook (name : Text) (partialOf : ℕ → StoreAction ℕ) : DerivativeHook
  | [argument] => do
      let derived ← partialOf argument
      pure [derived]
  | _ =>
      .fail (.invalidArgument
        ("calculus_core: ".toList ++ name ++ "() takes exactly one argument".toList))

section Hooks

variable (symbols : CalculusSymbols)

/-- The hook of `sin`. -/
def sinHook : DerivativeHook :=
  unaryHook "sin".toList fun argument => func symbols.cos [argument]

/-- The hook of `cos`. -/
def cosHook : DerivativeHook :=
  unaryHook "cos".toList fun argument => do
    let sinArg ← func symbols.sin [argument]
    let minusOne ← num (-1)
    mul [minusOne, sinArg]

/-- The hook of `exp`. -/
def expHook : DerivativeHook :=
  unaryHook "exp".toList fun argument => func symbols.exp [argument]

/-- The hook of `ln`. -/
def lnHook : DerivativeHook :=
  unaryHook "ln".toList fun argument => do
    let minusOne ← num (-1)
    pow argument minusOne

end Hooks

/-- A caller's hook for a function that squares, which builds in the arena. -/
def squareHook : DerivativeHook :=
  unaryHook "square".toList fun argument => do
    let two ← num 2
    mul [two, argument]

/-- `HookRegistry`, and whether the built-in hooks have been registered. -/
structure HookRegistry where
  hooks : List (Symbol × DerivativeHook)
  builtinRegistered : Bool

namespace HookRegistry

/-- The registry of a new process. -/
def fresh : HookRegistry where
  hooks := []
  builtinRegistered := false

/-- `set`: the last hook of a head counts. -/
def set (registry : HookRegistry) (head : Symbol) (hook : DerivativeHook) :
    HookRegistry :=
  { registry with hooks := (head, hook) :: registry.hooks }

/-- `get`. -/
def get (registry : HookRegistry) (head : Symbol) : Option DerivativeHook :=
  registry.hooks.lookup head

/-- `register_builtin_hooks`. -/
def registerBuiltinHooks (symbols : CalculusSymbols) (registry : HookRegistry) :
    HookRegistry :=
  (((registry.set symbols.sin (sinHook symbols)).set symbols.cos
    (cosHook symbols)).set symbols.exp (expHook symbols)).set symbols.ln lnHook

/-- `ensure_builtin_hooks_registered`: only the first call registers them. -/
def ensureBuiltinHooksRegistered
    (symbols : CalculusSymbols)
    (registry : HookRegistry) :
    HookRegistry :=
  if registry.builtinRegistered then
    registry
  else
    { registry.registerBuiltinHooks symbols with builtinRegistered := true }

end HookRegistry

/-- `is_zero`. -/
def isZero (store : AtomStore) (slot : ℕ) : Bool :=
  store.tag slot = .num && store.asNum slot = 0

/-- The loop of `derivative_add`. -/
def derivativeAll (derive : ℕ → StoreAction ℕ) : List ℕ → StoreAction (List ℕ)
  | [] => pure []
  | child :: rest => do
      let derived ← derive child
      let later ← derivativeAll derive rest
      pure (derived :: later)

/-- `derivative_add`. -/
def derivativeAdd
    (derive : ℕ → StoreAction ℕ)
    (children : List ℕ) :
    StoreAction ℕ := do
  let terms ← derivativeAll derive children
  add terms

/-- The loop of `derivative_mul`, after some factors. -/
def productTerms
    (derive : ℕ → StoreAction ℕ) :
    List ℕ → List ℕ → StoreAction (List ℕ)
  | _, [] => pure []
  | before, factor :: factors => do
      let derived ← derive factor
      let term ← mul (derived :: (before ++ factors))
      let terms ← productTerms derive (before ++ [factor]) factors
      pure (term :: terms)

/-- `derivative_mul`. -/
def derivativeMul
    (derive : ℕ → StoreAction ℕ)
    (children : List ℕ) :
    StoreAction ℕ := do
  let terms ← productTerms derive [] children
  add terms

/-- `exponent_minus_one`. -/
def exponentMinusOne (exponent : ℕ) : StoreAction ℕ := fun store =>
  if store.tag exponent = .num then
    num (store.asNum exponent - 1) store
  else
    Stateful.next (num (-1)) (fun minusOne => add [exponent, minusOne]) store

/-- `derivative_pow`, where only the base depends on the variable. -/
def powerRule (base exponent baseDerivative : ℕ) : StoreAction ℕ := do
  let lowered ← exponentMinusOne exponent
  let powerTerm ← pow base lowered
  mul [exponent, powerTerm, baseDerivative]

/-- The end of `derivative_pow`, where the exponent depends on the variable. -/
def exponentialRule
    (symbols : CalculusSymbols)
    (base exponent baseDerivative exponentDerivative : ℕ)
    (baseConstant : Bool) :
    StoreAction ℕ := do
  let powerTerm ← pow base exponent
  let lnBase ← func symbols.ln [base]
  if baseConstant then
    mul [powerTerm, lnBase, exponentDerivative]
  else do
    let term1 ← mul [exponentDerivative, lnBase]
    let minusOne ← num (-1)
    let baseInverse ← pow base minusOne
    let term2 ← mul [exponent, baseDerivative, baseInverse]
    let inner ← add [term1, term2]
    mul [powerTerm, inner]

/-- `derivative_pow`, once base and exponent have been differentiated. -/
def powerCases
    (symbols : CalculusSymbols)
    (base exponent baseDerivative exponentDerivative : ℕ) :
    StoreAction ℕ := fun store =>
  if isZero store baseDerivative && isZero store exponentDerivative then
    num 0 store
  else if isZero store exponentDerivative then
    powerRule base exponent baseDerivative store
  else
    exponentialRule symbols base exponent baseDerivative exponentDerivative
      (isZero store baseDerivative) store

/-- `derivative_pow`. -/
def derivativePow
    (symbols : CalculusSymbols)
    (derive : ℕ → StoreAction ℕ)
    (base exponent : ℕ) :
    StoreAction ℕ := do
  let baseDerivative ← derive base
  let exponentDerivative ← derive exponent
  powerCases symbols base exponent baseDerivative exponentDerivative

/-- The loop at the end of `derivative_fun`. -/
def chainTerms (derive : ℕ → StoreAction ℕ) : List ℕ → List ℕ → StoreAction (List ℕ)
  | outer :: partials, argument :: arguments => do
      let inner ← derive argument
      let term ← mul [outer, inner]
      let terms ← chainTerms derive partials arguments
      pure (term :: terms)
  | _, _ => pure []

/-- `derivative_fun`. -/
def derivativeFun
    (table : Snapshot)
    (registry : HookRegistry)
    (derive : ℕ → StoreAction ℕ)
    (head : Symbol)
    (arguments : List ℕ) :
    StoreAction ℕ :=
  match registry.get head with
  | none => .fail (missingHook table head)
  | some hook => do
      let partials ← hook arguments
      if partials.length ≠ arguments.length then
        .fail (wrongPartials table head partials.length arguments.length)
      else if arguments.isEmpty then
        num 0
      else do
        let terms ← chainTerms derive partials arguments
        add terms

/-- `derivative_impl`, with fuel for the depth of the recursion. -/
def derivativeFuel
    (table : Snapshot)
    (symbols : CalculusSymbols)
    (registry : HookRegistry)
    (variable_ : Symbol) :
    ℕ → ℕ → StoreAction ℕ
  | 0, slot => pure slot
  | fuel + 1, slot => fun store =>
      let derive := derivativeFuel table symbols registry variable_ fuel
      match store.tag slot with
      | .num => num 0 store
      | .var => num (if store.symbolOf slot = variable_ then 1 else 0) store
      | .add => derivativeAdd derive (store.children slot) store
      | .mul => derivativeMul derive (store.children slot) store
      | .pow =>
          derivativePow symbols derive ((store.children slot).getD 0 0)
            ((store.children slot).getD 1 0) store
      | .func =>
          derivativeFun table registry derive (store.symbolOf slot) (store.children slot)
            store

/-- `derivative_impl`; children come before their node, so its slot is fuel enough. -/
def derivativeImpl
    (table : Snapshot)
    (symbols : CalculusSymbols)
    (registry : HookRegistry)
    (slot : ℕ)
    (variable_ : Symbol) :
    StoreAction ℕ :=
  derivativeFuel table symbols registry variable_ (slot + 1) slot

/-- A store, and the registry of the process. -/
structure Session where
  store : AtomStore
  registry : HookRegistry

/-- `derivative`: what it returns or throws, and the session after it. -/
def derivative
    (table : Snapshot)
    (symbols : CalculusSymbols)
    (session : Session)
    (slot : ℕ)
    (variable_ : Symbol) :
    Except DerivativeError ℕ × Session :=
  let registry := session.registry.ensureBuiltinHooksRegistered symbols
  let (outcome, store) :=
    derivativeImpl table symbols registry slot variable_ session.store
  (outcome, { store := store, registry := registry })

end Algorithm

end Slots

end CalculusCore
