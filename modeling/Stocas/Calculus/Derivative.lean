import Stocas.Atom.Tree
import Stocas.Library.Outcome

namespace CalculusCore

open AtomCore (AtomTree)
open AtomCore.AtomTree (mkAdd mkMul)
open Outcome (bind_eq_ok map_eq_ok)
open SymbolTable (Snapshot Symbol Text)

/-!
# Symbolic differentiation

The derivative of an atom is built by rules, one for each kind of node; a function
call asks the hook registered for its head for the partial derivatives.  Atoms are
the trees that the builders of the store deliver.
-/

/-- The exceptions of differentiation. -/
inductive DerivativeError where
  | invalidArgument (message : Text)
  | logicError (message : Text)
  deriving Repr, DecidableEq

/-- `DerivativeHook`: the partial derivatives of a call, from its arguments. -/
abbrev DerivativeHook : Type :=
  List AtomTree → Except DerivativeError (List AtomTree)

/-- `sin_symbol()`, `cos_symbol()`, `exp_symbol()` and `ln_symbol()`. -/
structure CalculusSymbols where
  sin : Symbol
  cos : Symbol
  exp : Symbol
  ln : Symbol

/-- A hook for functions of one argument. -/
def unaryHook (name : Text) (partialOf : AtomTree → AtomTree) : DerivativeHook
  | [argument] => .ok [partialOf argument]
  | _ =>
      .error (.invalidArgument
        ("calculus_core: ".toList ++ name ++ "() takes exactly one argument".toList))

/-- What a hook of one argument returns. -/
theorem unaryHook_eq_ok
    {name : Text}
    {partialOf : AtomTree → AtomTree}
    {arguments partials : List AtomTree}
    (returned : unaryHook name partialOf arguments = .ok partials) :
    ∃ argument, arguments = [argument] ∧ partials = [partialOf argument] := by
  match arguments with
  | [argument] =>
      cases returned
      exact ⟨argument, rfl, rfl⟩
  | [] =>
      cases returned
  | _ :: _ :: _ =>
      cases returned

section Hooks

variable (symbols : CalculusSymbols)

/-- The hook of `sin`. -/
def sinHook : DerivativeHook :=
  unaryHook "sin".toList fun argument => .func symbols.cos [argument]

/-- The hook of `cos`. -/
def cosHook : DerivativeHook :=
  unaryHook "cos".toList fun argument =>
    mkMul [.num (-1), .func symbols.sin [argument]]

/-- The hook of `exp`. -/
def expHook : DerivativeHook :=
  unaryHook "exp".toList fun argument => .func symbols.exp [argument]

/-- The hook of `ln`. -/
def lnHook : DerivativeHook :=
  unaryHook "ln".toList fun argument => .pow argument (.num (-1))

end Hooks

/-- `HookRegistry`, and whether the built-in hooks have been registered. -/
structure HookRegistry where
  hooks : List (Symbol × DerivativeHook)
  builtinRegistered : Bool

namespace HookRegistry

/-- `set`: the last hook of a head counts. -/
def set (registry : HookRegistry) (head : Symbol) (hook : DerivativeHook) :
    HookRegistry :=
  { registry with hooks := (head, hook) :: registry.hooks }

/-- `get`. -/
def get (registry : HookRegistry) (head : Symbol) : Option DerivativeHook :=
  registry.hooks.lookup head

/-- `register_builtin_hooks`. -/
def registerBuiltinHooks (symbols : CalculusSymbols) (registry : HookRegistry) :
    HookRegistry :=
  (((registry.set symbols.sin (sinHook symbols)).set symbols.cos
    (cosHook symbols)).set symbols.exp (expHook symbols)).set symbols.ln lnHook

/-- `ensure_builtin_hooks_registered`: only the first call registers them. -/
def ensureBuiltinHooksRegistered
    (symbols : CalculusSymbols)
    (registry : HookRegistry) :
    HookRegistry :=
  if registry.builtinRegistered then
    registry
  else
    { registry.registerBuiltinHooks symbols with builtinRegistered := true }

end HookRegistry

/-- `is_zero`: the atom is the number 0 itself. -/
def isZero : AtomTree → Bool
  | .num value => value == 0
  | _ => false

/--
The terms of the product rule, after some factors: each factor in turn is replaced
by its derivative, which comes first.
-/
def productTerms : List AtomTree → List AtomTree → List AtomTree → List AtomTree
  | before, factor :: factors, derived :: deriveds =>
      mkMul (derived :: (before ++ factors)) ::
        productTerms (before ++ [factor]) factors deriveds
  | _, _, _ => []

/-- `exponent - 1`, computed for a number and built otherwise. -/
def exponentMinusOne : AtomTree → AtomTree
  | .num value => .num (value - 1)
  | exponent => mkAdd [exponent, .num (-1)]

/-- `derivative_pow`, from the derivatives of base and exponent. -/
def derivativePow
    (symbols : CalculusSymbols)
    (base exponent baseDerivative exponentDerivative : AtomTree) :
    AtomTree :=
  if isZero baseDerivative && isZero exponentDerivative then
    .num 0
  else if isZero exponentDerivative then
    mkMul [exponent, .pow base (exponentMinusOne exponent), baseDerivative]
  else if isZero baseDerivative then
    mkMul [.pow base exponent, .func symbols.ln [base], exponentDerivative]
  else
    mkMul
      [.pow base exponent,
        mkAdd
          [mkMul [exponentDerivative, .func symbols.ln [base]],
            mkMul [exponent, baseDerivative, .pow base (.num (-1))]]]

/-- The end of `derivative_fun`: partial derivatives times those of the arguments. -/
def chainRule (partials deriveds : List AtomTree) : AtomTree :=
  if deriveds.isEmpty then
    .num 0
  else
    mkAdd (List.zipWith (fun outer inner => mkMul [outer, inner]) partials deriveds)

/-- The exception for a head without a hook. -/
def missingHook (table : Snapshot) (head : Symbol) : DerivativeError :=
  .invalidArgument
    ("calculus_core::derivative: no derivative hook registered for '".toList ++
      SymbolTable.symbolName table head ++
      "' - register one with register_derivative_hook()".toList)

/-- The exception for a hook that returns another number of partial derivatives. -/
def wrongPartials (table : Snapshot) (head : Symbol) (returned expected : Nat) :
    DerivativeError :=
  .logicError
    ("calculus_core::derivative: derivative hook for '".toList ++
      SymbolTable.symbolName table head ++ "' returned ".toList ++
      (toString returned).toList ++ " partial(s) for ".toList ++
      (toString expected).toList ++ " argument(s)".toList)

section Derivative

variable (table : Snapshot) (symbols : CalculusSymbols) (registry : HookRegistry)
  (variable_ : Symbol)

mutual

/-- `derivative_impl`. -/
def derivativeImpl : AtomTree → Except DerivativeError AtomTree
  | .num _ => .ok (.num 0)
  | .var symbol => .ok (.num (if symbol = variable_ then 1 else 0))
  | .add terms => (derivativeAll terms).map mkAdd
  | .mul factors =>
      (derivativeAll factors).map fun deriveds => mkAdd (productTerms [] factors deriveds)
  | .pow base exponent => do
      let baseDerivative ← derivativeImpl base
      let exponentDerivative ← derivativeImpl exponent
      .ok (derivativePow symbols base exponent baseDerivative exponentDerivative)
  | .func head arguments =>
      match registry.get head with
      | none => .error (missingHook table head)
      | some hook => do
          let partials ← hook arguments
          if partials.length ≠ arguments.length then
            .error (wrongPartials table head partials.length arguments.length)
          else
            (derivativeAll arguments).map (chainRule partials)

/-- The derivatives of the children, in their order. -/
def derivativeAll : List AtomTree → Except DerivativeError (List AtomTree)
  | [] => .ok []
  | child :: rest => do
      let first ← derivativeImpl child
      let later ← derivativeAll rest
      .ok (first :: later)

end

end Derivative

/-- `derivative`: the derivative, and the registry with the built-in hooks. -/
def derivative
    (table : Snapshot)
    (symbols : CalculusSymbols)
    (registry : HookRegistry)
    (expr : AtomTree)
    (variable_ : Symbol) :
    Except DerivativeError AtomTree × HookRegistry :=
  let registry := registry.ensureBuiltinHooksRegistered symbols
  (derivativeImpl table symbols registry variable_ expr, registry)

/-- A hook that a caller may register, for a function that squares. -/
def squareHook : DerivativeHook :=
  unaryHook "square".toList fun argument => mkMul [.num 2, argument]

/-- `derivative` called again and again on its own result. -/
def iterateDerivative
    (table : Snapshot)
    (symbols : CalculusSymbols)
    (registry : HookRegistry)
    (variable_ : Symbol) :
    Nat → AtomTree → Except DerivativeError AtomTree
  | 0, expr => .ok expr
  | count + 1, expr => do
      let (outcome, registry) := derivative table symbols registry expr variable_
      let derived ← outcome
      iterateDerivative table symbols registry variable_ count derived

/-- The derivatives of the children are one by one those of each. -/
theorem forall₂_of_derivativeAll
    {table : Snapshot}
    {symbols : CalculusSymbols}
    {registry : HookRegistry}
    {variable_ : Symbol}
    {children deriveds : List AtomTree}
    (returned : derivativeAll table symbols registry variable_ children = .ok deriveds) :
    List.Forall₂
      (fun child derived =>
        derivativeImpl table symbols registry variable_ child = .ok derived)
      children deriveds := by
  induction children generalizing deriveds with
  | nil =>
      cases returned
      exact .nil
  | cons child children inductionHypothesis =>
      obtain ⟨derived, firstReturned, rest⟩ := bind_eq_ok.mp returned
      obtain ⟨later, laterReturned, ended⟩ := bind_eq_ok.mp rest
      cases ended
      exact .cons firstReturned (inductionHypothesis laterReturned)

/-- A call has a hook that answers with a partial derivative for each argument. -/
def Answered (registry : HookRegistry) : AtomTree → Prop
  | .func head arguments =>
      ∃ hook partials,
        registry.get head = some hook ∧
          hook arguments = .ok partials ∧ partials.length = arguments.length
  | _ => True

section Returns

variable {table : Snapshot} {symbols : CalculusSymbols} {registry : HookRegistry}
  {variable_ : Symbol}

/-- The children are differentiated when each of them is. -/
theorem derivativeAll_returns_iff
    {children : List AtomTree} :
    (∃ deriveds, derivativeAll table symbols registry variable_ children = .ok deriveds) ↔
      ∀ child ∈ children,
        ∃ derived, derivativeImpl table symbols registry variable_ child = .ok derived := by
  induction children with
  | nil =>
      exact ⟨fun _ => nofun, fun _ => ⟨[], rfl⟩⟩
  | cons child children inductionHypothesis =>
      rw [List.forall_mem_cons, ← inductionHypothesis]
      constructor
      · rintro ⟨deriveds, returned⟩
        obtain ⟨derived, firstReturned, rest⟩ := bind_eq_ok.mp returned
        obtain ⟨later, laterReturned, -⟩ := bind_eq_ok.mp rest
        exact ⟨⟨derived, firstReturned⟩, later, laterReturned⟩
      · rintro ⟨⟨derived, firstReturned⟩, later, laterReturned⟩
        refine ⟨derived :: later, bind_eq_ok.mpr ⟨derived, firstReturned, ?_⟩⟩
        exact bind_eq_ok.mpr ⟨later, laterReturned, rfl⟩

/-- Differentiation returns exactly when every call is answered. -/
theorem derivativeImpl_returns_iff
    (tree : AtomTree) :
    (∃ derived, derivativeImpl table symbols registry variable_ tree = .ok derived) ↔
      tree.Everywhere (Answered registry) := by
  have ofAll : ∀ {children : List AtomTree} {change : List AtomTree → AtomTree},
      (∃ derived, (derivativeAll table symbols registry variable_ children).map change =
        .ok derived) ↔
        ∀ child ∈ children,
          ∃ derived, derivativeImpl table symbols registry variable_ child = .ok derived := by
    intro children change
    rw [← derivativeAll_returns_iff]
    constructor
    · rintro ⟨derived, returned⟩
      obtain ⟨deriveds, allReturned, -⟩ := map_eq_ok.mp returned
      exact ⟨deriveds, allReturned⟩
    · rintro ⟨deriveds, allReturned⟩
      exact ⟨change deriveds, map_eq_ok.mpr ⟨deriveds, allReturned, rfl⟩⟩
  induction tree with
  | num value =>
      exact iff_of_true ⟨_, rfl⟩ (.node trivial (List.forall_mem_nil _))
  | var symbol =>
      exact iff_of_true ⟨_, rfl⟩ (.node trivial (List.forall_mem_nil _))
  | add terms inductionHypothesis =>
      rw [AtomCore.AtomTree.everywhere_iff, derivativeImpl, ofAll]
      exact (forall₂_congr inductionHypothesis).trans (and_iff_right trivial).symm
  | mul factors inductionHypothesis =>
      rw [AtomCore.AtomTree.everywhere_iff, derivativeImpl, ofAll]
      exact (forall₂_congr inductionHypothesis).trans (and_iff_right trivial).symm
  | pow base exponent baseHypothesis exponentHypothesis =>
      rw [AtomCore.AtomTree.everywhere_iff, derivativeImpl]
      simp only [AtomCore.AtomTree.children, List.forall_mem_cons, ← baseHypothesis,
        ← exponentHypothesis]
      constructor
      · rintro ⟨derived, returned⟩
        obtain ⟨baseDerivative, baseReturned, rest⟩ := bind_eq_ok.mp returned
        obtain ⟨exponentDerivative, exponentReturned, -⟩ := bind_eq_ok.mp rest
        exact ⟨trivial, ⟨_, baseReturned⟩, ⟨_, exponentReturned⟩, List.forall_mem_nil _⟩
      · rintro ⟨-, ⟨baseDerivative, baseReturned⟩, ⟨exponentDerivative, exponentReturned⟩, -⟩
        rw [baseReturned, exponentReturned]
        exact ⟨_, rfl⟩
  | func head arguments inductionHypothesis =>
      rw [AtomCore.AtomTree.everywhere_iff, derivativeImpl]
      simp only [AtomCore.AtomTree.children]
      rw [← forall₂_congr inductionHypothesis]
      constructor
      · rintro ⟨derived, returned⟩
        cases registered : registry.get head with
        | none =>
            rw [registered] at returned
            cases returned
        | some hook =>
            rw [registered] at returned
            obtain ⟨partials, hookReturned, rest⟩ := bind_eq_ok.mp returned
            split_ifs at rest with sameLength
            exact ⟨⟨hook, partials, registered, hookReturned, not_not.mp sameLength⟩,
              ofAll.mp ⟨derived, rest⟩⟩
      · rintro ⟨⟨hook, partials, registered, hookReturned, sameLength⟩, all⟩
        obtain ⟨derived, allReturned⟩ := @ofAll arguments (chainRule partials) |>.mpr all
        rw [registered]
        refine ⟨derived, bind_eq_ok.mpr ⟨partials, hookReturned, ?_⟩⟩
        rwa [if_neg (not_not.mpr sameLength)]

end Returns

end CalculusCore
