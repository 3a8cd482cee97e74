import Stocas.Calculus.Derivative
import Stocas.Library.Run

namespace CalculusCore

open AtomCore (AtomTree)
open Outcome (bind_eq_ok)
open SymbolTable (Snapshot Symbol Text)

/-!
# Hooks over a process

Callers register hooks and differentiate in any order.  The first derivative call
installs the built-in hooks with the same `set` that callers use, so it overwrites
what callers have registered for these heads before.
-/

/-- The calls that read or write the registry. -/
inductive HookCall where
  | registerDerivativeHook (head : Symbol) (hook : DerivativeHook)
  | derivative (expr : AtomTree) (variable_ : Symbol)

namespace HookCall

/-- What a call leaves in the registry. -/
def step
    (table : Snapshot)
    (symbols : CalculusSymbols)
    (registry : HookRegistry) :
    HookCall → HookRegistry
  | .registerDerivativeHook head hook => registry.set head hook
  | .derivative expr variable_ =>
      (CalculusCore.derivative table symbols registry expr variable_).2

/-- The hook that a call registers for a head. -/
def hookFor (head : Symbol) : HookCall → Option DerivativeHook
  | .registerDerivativeHook other hook => if head = other then some hook else none
  | .derivative _ _ => none

/-- The call registers a hook. -/
def isRegistration : HookCall → Bool
  | .registerDerivativeHook _ _ => true
  | .derivative _ _ => false

end HookCall

/-- The registry of a new process. -/
def HookRegistry.fresh : HookRegistry where
  hooks := []
  builtinRegistered := false

/-- The hook most recently registered for a head by a caller. -/
def callerHook (head : Symbol) : List HookCall → Option DerivativeHook
  | [] => none
  | call :: rest => (callerHook head rest).or (call.hookFor head)

/-- The built-in hook of a head. -/
def builtinHook (symbols : CalculusSymbols) (head : Symbol) : Option DerivativeHook :=
  (HookRegistry.fresh.registerBuiltinHooks symbols).get head

/-- The hook that callers may expect: their own, and else the built-in one. -/
def expectedHook
    (symbols : CalculusSymbols)
    (calls : List HookCall)
    (head : Symbol) :
    Option DerivativeHook :=
  (callerHook head calls).or (builtinHook symbols head)

/-- The expression has a function call with this head. -/
inductive Meets (head : Symbol) : AtomTree → Prop where
  | here
      {arguments : List AtomTree} :
      Meets head (.func head arguments)
  | inside
      {tree child : AtomTree} :
      child ∈ tree.children →
      Meets head child →
      Meets head tree

/-- The registry that a derivative call looks hooks up in. -/
def registryInUse
    (table : Snapshot)
    (symbols : CalculusSymbols)
    (before : List HookCall) :
    HookRegistry :=
  (Transition.run (HookCall.step table symbols) .fresh before).ensureBuiltinHooksRegistered
    symbols

/-- Every derivative call finds the expected hook for each head that it meets. -/
def UsesCallersHooks
    (table : Snapshot)
    (symbols : CalculusSymbols)
    (calls : List HookCall) : Prop :=
  ∀ before expr variable_,
    before ++ [.derivative expr variable_] <+: calls →
    ∀ head,
      Meets head expr →
      (registryInUse table symbols before).get head =
        expectedHook symbols before head

/--
No derivative call meets a built-in head whose last registration by a caller, with
another hook than the built-in one, came before the first derivative call.
-/
def NoHookLost (symbols : CalculusSymbols) (calls : List HookCall) : Prop :=
  ∀ before expr variable_,
    before ++ [.derivative expr variable_] <+: calls →
    ∀ head,
      Meets head expr →
      ∀ builtin hook,
        builtinHook symbols head = some builtin →
        callerHook head before = some hook →
        callerHook head (before.dropWhile HookCall.isRegistration) = none →
        hook = builtin

/-- The newest hook of a head is found. -/
theorem HookRegistry.get_set
    (registry : HookRegistry)
    (head other : Symbol)
    (hook : DerivativeHook) :
    (registry.set other hook).get head =
      if head = other then some hook else registry.get head := by
  rw [HookRegistry.get, HookRegistry.set, List.lookup_cons]
  by_cases same : head = other
  · simp [same]
  · simp [same, beq_false_of_ne same, HookRegistry.get]

/-- Installing the built-in hooks hides what was there for their heads. -/
theorem HookRegistry.get_registerBuiltinHooks
    (symbols : CalculusSymbols)
    (registry : HookRegistry)
    (head : Symbol) :
    (registry.registerBuiltinHooks symbols).get head =
      (builtinHook symbols head).or (registry.get head) := by
  have nothing : HookRegistry.fresh.get head = none := rfl
  simp only [builtinHook, HookRegistry.registerBuiltinHooks, HookRegistry.get_set, nothing]
  split_ifs <;> rfl

/-- Later registrations come first. -/
theorem callerHook_append
    (head : Symbol)
    (earlier later : List HookCall) :
    callerHook head (earlier ++ later) =
      (callerHook head later).or (callerHook head earlier) := by
  induction earlier with
  | nil =>
      simp [callerHook]
  | cons call rest inductionHypothesis =>
      rw [List.cons_append, callerHook, callerHook, inductionHypothesis,
        Option.or_assoc]

section Run

variable {table : Snapshot} {symbols : CalculusSymbols}

/-- Unless the built-in hooks are installed on the way, only callers set hooks. -/
theorem get_run
    {registry : HookRegistry}
    {calls : List HookCall}
    (installed :
      registry.builtinRegistered = true ∨
        ∀ call ∈ calls, call.isRegistration = true)
    (head : Symbol) :
    (Transition.run (HookCall.step table symbols) registry calls).get head =
      (callerHook head calls).or (registry.get head) ∧
      (Transition.run (HookCall.step table symbols) registry calls).builtinRegistered =
        registry.builtinRegistered := by
  induction calls generalizing registry with
  | nil =>
      exact ⟨rfl, rfl⟩
  | cons call rest inductionHypothesis =>
      have kept :
          (HookCall.step table symbols registry call).builtinRegistered =
              registry.builtinRegistered ∧
            (HookCall.step table symbols registry call).get head =
              (call.hookFor head).or (registry.get head) := by
        cases call with
        | registerDerivativeHook other hook =>
            refine ⟨rfl, ?_⟩
            rw [HookCall.step, HookRegistry.get_set, HookCall.hookFor]
            split_ifs <;> rfl
        | derivative expr variable_ =>
            have isInstalled : registry.builtinRegistered = true := by
              rcases installed with isInstalled | onlyRegistrations
              · exact isInstalled
              · cases onlyRegistrations _ List.mem_cons_self
            have unchanged :
                HookCall.step table symbols registry (.derivative expr variable_) =
                  registry := by
              simp [HookCall.step, derivative,
                HookRegistry.ensureBuiltinHooksRegistered, isInstalled]
            rw [unchanged]
            exact ⟨rfl, rfl⟩
      have stillInstalled :
          (HookCall.step table symbols registry call).builtinRegistered = true ∨
            ∀ other ∈ rest, other.isRegistration = true :=
        installed.imp (fun isInstalled => kept.1.trans isInstalled)
          fun all other member => all other (List.mem_cons_of_mem call member)
      have later := inductionHypothesis stillInstalled
      rw [Transition.run_cons, later.1, later.2, kept.1, kept.2, callerHook,
        Option.or_assoc]
      exact ⟨rfl, rfl⟩

/-- The first derivative call installs the built-in hooks. -/
theorem get_ensureBuiltinHooksRegistered
    {registry : HookRegistry}
    (notInstalled : registry.builtinRegistered = false)
    (head : Symbol) :
    (registry.ensureBuiltinHooksRegistered symbols).get head =
      (builtinHook symbols head).or (registry.get head) := by
  rw [HookRegistry.ensureBuiltinHooksRegistered, notInstalled, if_neg Bool.false_ne_true]
  exact registry.get_registerBuiltinHooks symbols head

/-- After a derivative call the built-in hooks are installed. -/
theorem builtinRegistered_ensure
    (registry : HookRegistry) :
    (registry.ensureBuiltinHooksRegistered symbols).builtinRegistered = true := by
  rw [HookRegistry.ensureBuiltinHooksRegistered]
  split_ifs with installed
  · exact installed
  · rfl

/-- Once they are installed, nothing is done for them. -/
theorem ensureBuiltinHooksRegistered_eq
    {registry : HookRegistry}
    (installed : registry.builtinRegistered = true) :
    registry.ensureBuiltinHooksRegistered symbols = registry := by
  rw [HookRegistry.ensureBuiltinHooksRegistered, if_pos installed]

/-- The built-in hooks lie between the callers' early and late hooks. -/
theorem get_registryInUse
    (before : List HookCall)
    (head : Symbol) :
    (registryInUse table symbols before).get head =
      (callerHook head (before.dropWhile HookCall.isRegistration)).or
        ((builtinHook symbols head).or
          (callerHook head (before.takeWhile HookCall.isRegistration))) := by
  have early :=
    @get_run table symbols .fresh (before.takeWhile HookCall.isRegistration)
      (Or.inr fun call member => List.all_eq_true.mp List.all_takeWhile call member)
      head
  have nothing : HookRegistry.fresh.get head = none := rfl
  rw [nothing, Option.or_none] at early
  have splits :
      Transition.run (HookCall.step table symbols) .fresh before =
        Transition.run (HookCall.step table symbols)
          (Transition.run (HookCall.step table symbols) .fresh
            (before.takeWhile HookCall.isRegistration))
          (before.dropWhile HookCall.isRegistration) := by
    simp only [Transition.run]
    rw [← List.foldl_append, List.takeWhile_append_dropWhile]
  rw [registryInUse, splits]
  generalize Transition.run (HookCall.step table symbols) .fresh
    (before.takeWhile HookCall.isRegistration) = registry at early
  cases later : before.dropWhile HookCall.isRegistration with
  | nil =>
      rw [Transition.run_nil, get_ensureBuiltinHooksRegistered early.2, early.1]
      rfl
  | cons call rest =>
      have first : call.isRegistration = false := by
        have notRegistration :=
          List.head?_dropWhile_not HookCall.isRegistration before
        rw [later] at notRegistration
        simpa using notRegistration
      cases call with
      | registerDerivativeHook other hook =>
          cases first
      | derivative expr variable_ =>
          have installed := @builtinRegistered_ensure symbols registry
          have rest_eq := @get_run table symbols _ rest (Or.inl installed) head
          rw [Transition.run_cons]
          change ((Transition.run _ (registry.ensureBuiltinHooksRegistered symbols)
            rest).ensureBuiltinHooksRegistered symbols).get head = _
          rw [ensureBuiltinHooksRegistered_eq (rest_eq.2.trans installed), rest_eq.1,
            get_ensureBuiltinHooksRegistered early.2, early.1, callerHook,
            HookCall.hookFor, Option.or_none]

/-- The lookup is the expected one unless a caller's hook is overwritten. -/
theorem get_registryInUse_iff
    (before : List HookCall)
    (head : Symbol) :
    (registryInUse table symbols before).get head = expectedHook symbols before head ↔
      ∀ builtin hook,
        builtinHook symbols head = some builtin →
        callerHook head before = some hook →
        callerHook head (before.dropWhile HookCall.isRegistration) = none →
        hook = builtin := by
  have callers :
      callerHook head before =
        (callerHook head (before.dropWhile HookCall.isRegistration)).or
          (callerHook head (before.takeWhile HookCall.isRegistration)) := by
    rw [← callerHook_append, List.takeWhile_append_dropWhile]
  rw [get_registryInUse, expectedHook, callers]
  cases callerHook head (before.dropWhile HookCall.isRegistration) with
  | some late =>
      simp
  | none =>
      cases builtinHook symbols head with
      | none =>
          simp
      | some builtin =>
          cases callerHook head (before.takeWhile HookCall.isRegistration) with
          | none =>
              simp
          | some early =>
              simp [eq_comm]

/-- Children that are differentiated alike are differentiated alike together. -/
theorem derivativeAll_congr
    {first second : HookRegistry}
    {variable_ : Symbol}
    {children : List AtomTree}
    (same :
      ∀ child ∈ children,
        derivativeImpl table symbols first variable_ child =
          derivativeImpl table symbols second variable_ child) :
    derivativeAll table symbols first variable_ children =
      derivativeAll table symbols second variable_ children := by
  induction children with
  | nil =>
      rfl
  | cons child rest inductionHypothesis =>
      have later :=
        inductionHypothesis fun other member => same other (by simp [member])
      rw [derivativeAll, derivativeAll, same child (by simp), later]

/-- Differentiation looks up the hooks of the heads that it meets, and no others. -/
theorem derivativeImpl_congr
    {first second : HookRegistry}
    {variable_ : Symbol}
    {expr : AtomTree}
    (same : ∀ head, Meets head expr → first.get head = second.get head) :
    derivativeImpl table symbols first variable_ expr =
      derivativeImpl table symbols second variable_ expr := by
  induction expr with
  | num | var =>
      rfl
  | add terms inductionHypothesis =>
      have all :=
        derivativeAll_congr fun term member =>
          inductionHypothesis term member fun head meets =>
            same head (.inside member meets)
      rw [derivativeImpl, derivativeImpl, all]
  | mul factors inductionHypothesis =>
      have all :=
        derivativeAll_congr fun factor member =>
          inductionHypothesis factor member fun head meets =>
            same head (.inside member meets)
      rw [derivativeImpl, derivativeImpl, all]
  | pow base exponent baseHypothesis exponentHypothesis =>
      have baseSame :=
        baseHypothesis fun head meets =>
          same head (.inside (by simp [AtomTree.children]) meets)
      have exponentSame :=
        exponentHypothesis fun head meets =>
          same head (.inside (by simp [AtomTree.children]) meets)
      rw [derivativeImpl, derivativeImpl, baseSame, exponentSame]
  | func head arguments inductionHypothesis =>
      have all :=
        derivativeAll_congr fun argument member =>
          inductionHypothesis argument member fun other meets =>
            same other (.inside member meets)
      rw [derivativeImpl, derivativeImpl, same head .here, all]

/--
Exactly in the runs where no caller's hook is overwritten do all derivative calls
look up the expected hooks; and what they return then is what these hooks give.
-/
theorem usesCallersHooks_iff
    (table : Snapshot)
    (symbols : CalculusSymbols)
    (calls : List HookCall) :
    (UsesCallersHooks table symbols calls ↔ NoHookLost symbols calls) ∧
      ∀ before expr variable_ (expected : HookRegistry),
        before ++ [.derivative expr variable_] <+: calls →
        NoHookLost symbols calls →
        (∀ head, Meets head expr →
          expected.get head = expectedHook symbols before head) →
        (derivative table symbols
            (Transition.run (HookCall.step table symbols) .fresh before) expr
            variable_).1 =
          derivativeImpl table symbols expected variable_ expr := by
  have exact :
      UsesCallersHooks table symbols calls ↔ NoHookLost symbols calls := by
    constructor
    · intro uses before expr variable_ isPrefix head meets
      exact (get_registryInUse_iff before head).mp
        (uses before expr variable_ isPrefix head meets)
    · intro nothingLost before expr variable_ isPrefix head meets
      exact (get_registryInUse_iff before head).mpr
        (nothingLost before expr variable_ isPrefix head meets)
  refine ⟨exact, ?_⟩
  intro before expr variable_ expected isPrefix nothingLost expectedHooks
  have uses := exact.mpr nothingLost before expr variable_ isPrefix
  refine derivativeImpl_congr fun head meets => ?_
  rw [expectedHooks head meets]
  exact uses head meets

/-- A hook for `sin` that is registered after the first derivative call, and used. -/
def lateRegistration : List HookCall :=
  [.derivative (.var ⟨4⟩) ⟨4⟩,
    .registerDerivativeHook ⟨0⟩ fun arguments => .ok arguments,
    .derivative (.func ⟨0⟩ [.var ⟨4⟩]) ⟨4⟩]

private theorem noHookLost_lateRegistration :
    NoHookLost ⟨⟨0⟩, ⟨1⟩, ⟨2⟩, ⟨3⟩⟩ lateRegistration := by
  intro before expr variable_ isPrefix head meets builtin hook isBuiltin ofCaller lost
  cases before with
  | nil =>
      cases ofCaller
  | cons call rest =>
      -- What follows the first derivative call is never lost.
      obtain ⟨isFirst, -⟩ := List.cons_prefix_cons.mp isPrefix
      subst isFirst
      rw [List.dropWhile_cons_of_neg (by simp [HookCall.isRegistration]), ofCaller] at lost
      cases lost

/-- The derivative of `sin(x)` is that of the hook registered after the first call. -/
theorem usesCallersHooks_iff_lateRegistration :
    UsesCallersHooks .empty ⟨⟨0⟩, ⟨1⟩, ⟨2⟩, ⟨3⟩⟩ lateRegistration ∧
      (derivative .empty ⟨⟨0⟩, ⟨1⟩, ⟨2⟩, ⟨3⟩⟩
          (Transition.run (HookCall.step .empty ⟨⟨0⟩, ⟨1⟩, ⟨2⟩, ⟨3⟩⟩) .fresh
            (lateRegistration.take 2))
          (.func ⟨0⟩ [.var ⟨4⟩]) ⟨4⟩).1 =
        .ok (.add [.mul [.num 1, .var ⟨4⟩]]) := by
  obtain ⟨exact, differentiates⟩ :=
    usesCallersHooks_iff .empty ⟨⟨0⟩, ⟨1⟩, ⟨2⟩, ⟨3⟩⟩ lateRegistration
  refine ⟨exact.mpr noHookLost_lateRegistration, ?_⟩
  rw [differentiates (lateRegistration.take 2) (.func ⟨0⟩ [.var ⟨4⟩]) ⟨4⟩
    ⟨[(⟨0⟩, fun arguments => .ok arguments)], true⟩ List.prefix_rfl
    noHookLost_lateRegistration]
  · rfl
  · intro head meets
    cases meets with
    | here =>
        rfl
    | inside member inner =>
        obtain rfl := List.mem_singleton.mp member
        cases inner with
        | inside deeper _ =>
            cases deeper

/-- A hook for `sin` that is registered first is overwritten by the built-in one. -/
theorem builtin_overwrites_caller :
    ¬UsesCallersHooks .empty ⟨⟨0⟩, ⟨1⟩, ⟨2⟩, ⟨3⟩⟩
      [.registerDerivativeHook ⟨0⟩ fun arguments => .ok arguments,
        .derivative (.func ⟨0⟩ [.var ⟨4⟩]) ⟨4⟩] := by
  intro uses
  have found :=
    uses [.registerDerivativeHook ⟨0⟩ fun arguments => .ok arguments]
      (.func ⟨0⟩ [.var ⟨4⟩]) ⟨4⟩ List.prefix_rfl ⟨0⟩ .here
  have same :=
    (get_registryInUse_iff _ _).mp found _ _ rfl rfl rfl
  have onVariable := congrFun same [.var ⟨4⟩]
  simp [sinHook, unaryHook] at onVariable

end Run

end CalculusCore
