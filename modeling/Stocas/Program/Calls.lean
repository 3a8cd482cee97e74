import Stocas.Atom.TreeParser
import Stocas.Calculus.SlotDerivativeTrees
import Stocas.Pattern.RepeatedRewrite
import Stocas.Poly.PolynomialAtom

namespace Program

open AtomCore (AtomStore AtomTree ParseError ParserContext StringHash)
open CalculusCore (CalculusSymbols DerivativeError)
open CalculusCore.Slots (HookFollows)
open PatternCore (Rule)
open PatternCore.Slots (RewriteError)
open PolyCore (MachinePolynomial RationalPolynomial polynomialToAtom polynomialTree
  rationalPolynomialToAtom rationalPolynomialTree)
open SymbolTable (Snapshot SourceLocation Symbol SymbolAttribute TableError Text)

/-!
# Programs that use the library

A program is a list of calls.  It refers to an atom by the position at which a call returned
it, and ends at the first exception.  The calls have two meanings: on the store, the symbol
table and the hook registry of a process, and on expression trees without a store.  The
symbols of `sin`, `cos`, `exp` and `ln` are registered before the program starts.
-/

section Calls

variable [StringHash]

/-- A hook, with the hook on trees that it follows. -/
structure FaithfulHook where
  onSlots : CalculusCore.Slots.DerivativeHook
  onTrees : CalculusCore.DerivativeHook
  follows : HookFollows onSlots onTrees

/-- A rule made from two atoms of the program. -/
structure RuleAtoms where
  pattern : ℕ
  replacement : ℕ
  guard : Option (PatternCore.MatchBindings → Bool)

/-- One call; atoms are given by their positions. -/
inductive Call where
  | getSymbol
      (namespaceName name : Text)
      (attributes : List SymbolAttribute)
      (location : SourceLocation)
  | num (value : ℚ)
  | var (symbol : Symbol)
  | add (terms : List ℕ)
  | mul (factors : List ℕ)
  | pow (base exponent : ℕ)
  | func (head : Symbol) (arguments : List ℕ)
  | parse (context : ParserContext) (expression : Text)
  | normalize (atom : ℕ)
  | replaceAll (rule : RuleAtoms) (target : ℕ)
  | replaceAllMultiple (rule : RuleAtoms) (target maxIterations : ℕ)
  | registerDerivativeHook (head : Symbol) (hook : FaithfulHook)
  | derivative (expr : ℕ) (variable_ : Symbol)
  | polynomialToAtom
      {numVars : ℕ}
      (vars : Fin numVars → Symbol)
      (polynomial : MachinePolynomial vars ℚ)
  | rationalPolynomialToAtom
      {numVars : ℕ}
      (vars : Fin numVars → Symbol)
      (polynomial : RationalPolynomial vars)

/-- What ends a program before its last call. -/
inductive Failure where
  /-- The program refers to an atom that no call returned. -/
  | noAtom (position : ℕ)
  | symbolTable (error : TableError)
  | parse (error : ParseError)
  | rewrite (error : RewriteError)
  | derivative (error : DerivativeError)
  deriving Repr, DecidableEq

/-- The atom that was returned at a position. -/
def fetch {α : Type} (atoms : List α) (position : ℕ) : Except Failure α :=
  match atoms[position]? with
  | some atom => .ok atom
  | none => .error (.noAtom position)

/-- The atoms that were returned at several positions. -/
def fetchAll {α : Type} (atoms : List α) : List ℕ → Except Failure (List α)
  | [] => .ok []
  | position :: rest => do
      let first ← fetch atoms position
      let others ← fetchAll atoms rest
      .ok (first :: others)

/-- A process: its store, symbol table and registry, and the slots that calls returned. -/
structure Process where
  store : AtomStore
  table : Snapshot
  registry : CalculusCore.Slots.HookRegistry
  atoms : List ℕ

namespace Process

/-- A process with a new store and this table. -/
def start (table : Snapshot) : Process where
  store := .empty
  table := table
  registry := .fresh
  atoms := []

/-- Take over the atom and the store that a call returns. -/
def deliver (process : Process) (result : ℕ × AtomStore) : Process :=
  { process with store := result.2, atoms := process.atoms ++ [result.1] }

/-- The rule whose atoms have these slots. -/
def rule (process : Process) (rule : RuleAtoms) : Except Failure Rule := do
  let pattern ← fetch process.atoms rule.pattern
  let replacement ← fetch process.atoms rule.replacement
  .ok ⟨process.store.tree pattern, process.store.tree replacement, rule.guard⟩

/-- What a call does to a process. -/
def perform (symbols : CalculusSymbols) (process : Process) :
    Call → Except Failure Process
  | .getSymbol namespaceName name attributes location => do
      let found ←
        (SymbolTable.getSymbol process.table namespaceName name attributes
          location).mapError .symbolTable
      .ok { process with table := found.2 }
  | .num value => .ok (process.deliver (process.store.num value))
  | .var symbol => .ok (process.deliver (process.store.var symbol))
  | .add terms => do
      let terms ← fetchAll process.atoms terms
      .ok (process.deliver (process.store.add terms))
  | .mul factors => do
      let factors ← fetchAll process.atoms factors
      .ok (process.deliver (process.store.mul factors))
  | .pow base exponent => do
      let base ← fetch process.atoms base
      let exponent ← fetch process.atoms exponent
      .ok (process.deliver (process.store.pow base exponent))
  | .func head arguments => do
      let arguments ← fetchAll process.atoms arguments
      .ok (process.deliver (process.store.func head arguments))
  | .parse context expression => do
      let (slot, state) ←
        (AtomCore.parse context expression process.store process.table).mapError .parse
      .ok (deliver { process with table := state.table } (slot, state.store))
  | .normalize atom => do
      let atom ← fetch process.atoms atom
      .ok (process.deliver (process.store.normalize atom))
  | .replaceAll rule target => do
      let rule ← process.rule rule
      let target ← fetch process.atoms target
      let result ←
        (PatternCore.Slots.replaceAll process.table rule process.store
          target).mapError (.rewrite ∘ .thrown)
      .ok (process.deliver result)
  | .replaceAllMultiple rule target maxIterations => do
      let rule ← process.rule rule
      let target ← fetch process.atoms target
      let result ←
        (PatternCore.Slots.replaceAllMultiple process.table rule maxIterations process.store
          target).mapError .rewrite
      .ok (process.deliver result)
  | .registerDerivativeHook head hook =>
      .ok { process with registry := process.registry.set head hook.onSlots }
  | .derivative expr variable_ => do
      let expr ← fetch process.atoms expr
      let (outcome, session) :=
        CalculusCore.Slots.derivative process.table symbols
          ⟨process.store, process.registry⟩ expr variable_
      let slot ← outcome.mapError .derivative
      .ok (deliver { process with registry := session.registry } (slot, session.store))
  | .polynomialToAtom _ polynomial =>
      .ok (process.deliver (polynomialToAtom polynomial process.store))
  | .rationalPolynomialToAtom _ polynomial =>
      .ok (process.deliver (rationalPolynomialToAtom polynomial process.store))

/-- The process after a program. -/
def run (symbols : CalculusSymbols) (table : Snapshot) (program : List Call) :
    Except Failure Process :=
  program.foldlM (perform symbols) (start table)

end Process

/-- `replace_all_multiple` on trees; the number counts the iterations that are left. -/
def replaceAllMultiple (table : Snapshot) (rule : Rule) :
    ℕ → AtomTree → Except RewriteError AtomTree
  | 0, _ => .error (.runtimeError PatternCore.Slots.exceededMaxIterations)
  | remaining + 1, current =>
      match PatternCore.replaceAll table rule current with
      | .error error => .error (.thrown error)
      | .ok next =>
          if next = current then
            .ok next
          else
            replaceAllMultiple table rule remaining next

/-- The symbol table and the registry, and the expressions that calls returned. -/
structure Expressions where
  table : Snapshot
  registry : CalculusCore.HookRegistry
  trees : List AtomTree

namespace Expressions

/-- No expressions, and this table. -/
def start (table : Snapshot) : Expressions where
  table := table
  registry := .fresh
  trees := []

/-- Take over the expression that a call returns. -/
def deliver (expressions : Expressions) (tree : AtomTree) : Expressions :=
  { expressions with trees := expressions.trees ++ [tree] }

/-- The rule whose atoms are these expressions. -/
def rule (expressions : Expressions) (rule : RuleAtoms) : Except Failure Rule := do
  let pattern ← fetch expressions.trees rule.pattern
  let replacement ← fetch expressions.trees rule.replacement
  .ok ⟨pattern, replacement, rule.guard⟩

/-- What a call means. -/
def perform (symbols : CalculusSymbols) (expressions : Expressions) :
    Call → Except Failure Expressions
  | .getSymbol namespaceName name attributes location => do
      let found ←
        (SymbolTable.getSymbol expressions.table namespaceName name attributes
          location).mapError .symbolTable
      .ok { expressions with table := found.2 }
  | .num value => .ok (expressions.deliver (.num value))
  | .var symbol => .ok (expressions.deliver (.var symbol))
  | .add terms => do
      let terms ← fetchAll expressions.trees terms
      .ok (expressions.deliver (.mkAdd terms))
  | .mul factors => do
      let factors ← fetchAll expressions.trees factors
      .ok (expressions.deliver (.mkMul factors))
  | .pow base exponent => do
      let base ← fetch expressions.trees base
      let exponent ← fetch expressions.trees exponent
      .ok (expressions.deliver (.pow base exponent))
  | .func head arguments => do
      let arguments ← fetchAll expressions.trees arguments
      .ok (expressions.deliver (.func head arguments))
  | .parse context expression => do
      let (tree, table) ←
        (AtomCore.TreeParser.parse context expression expressions.table).mapError .parse
      .ok (deliver { expressions with table := table } tree)
  | .normalize atom => do
      let tree ← fetch expressions.trees atom
      .ok (expressions.deliver tree.normalize)
  | .replaceAll rule target => do
      let rule ← expressions.rule rule
      let target ← fetch expressions.trees target
      let result ←
        (PatternCore.replaceAll expressions.table rule target).mapError (.rewrite ∘ .thrown)
      .ok (expressions.deliver result)
  | .replaceAllMultiple rule target maxIterations => do
      let rule ← expressions.rule rule
      let target ← fetch expressions.trees target
      let result ←
        (replaceAllMultiple expressions.table rule maxIterations target).mapError .rewrite
      .ok (expressions.deliver result)
  | .registerDerivativeHook head hook =>
      .ok { expressions with registry := expressions.registry.set head hook.onTrees }
  | .derivative expr variable_ => do
      let expr ← fetch expressions.trees expr
      let (outcome, registry) :=
        CalculusCore.derivative expressions.table symbols expressions.registry expr variable_
      let tree ← outcome.mapError .derivative
      .ok (deliver { expressions with registry := registry } tree)
  | .polynomialToAtom _ polynomial =>
      .ok (expressions.deliver (polynomialTree polynomial))
  | .rationalPolynomialToAtom _ polynomial =>
      .ok (expressions.deliver (rationalPolynomialTree polynomial))

/-- The expressions of a program. -/
def run (symbols : CalculusSymbols) (table : Snapshot) (program : List Call) :
    Except Failure Expressions :=
  program.foldlM (perform symbols) (start table)

end Expressions

end Calls

end Program
