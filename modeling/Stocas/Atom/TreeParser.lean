import Stocas.Atom.NormalizeStore
import Stocas.Atom.Parser
import Stocas.Library.Related

namespace AtomCore

open AtomStore (Built BuiltAll Extends builtAll_nil built_self num_built var_built)
open NumericaCore (bigIntOfString)
open RelatedOutcomes (Related)
open SymbolTable (Snapshot Symbol Text)

/-!
# Parsing does not depend on the arena

The same parser without an arena returns trees.  The parser of the source follows it on every
arena: it throws the same exceptions, registers the same names, and returns the slot of the
same tree, whatever the arena holds already.
-/

namespace TreeParser

/-- The tokens from the cursor on, and the symbol table. -/
structure State where
  tokens : List Token
  table : Snapshot

namespace State

def peek (state : State) : Token :=
  state.tokens.headD ⟨.finish, [], 0⟩

def lookahead (state : State) : Token :=
  state.tokens.tail.headD ⟨.finish, [], 0⟩

def advance (state : State) : State :=
  { state with tokens := state.tokens.tail }

def expect (state : State) (kind : TokKind) (message : Text) : Except ParseError State :=
  if state.peek.kind = kind then
    .ok state.advance
  else
    fail message state.peek.pos

end State

/-- What a parsing function returns: a tree and the new state. -/
abbrev Parsed : Type := Except ParseError (AtomTree × State)

def negate (value : AtomTree) : AtomTree :=
  .mkMul [.num (-1), value]

def invert (value : AtomTree) : AtomTree :=
  .pow value (.num (-1))

def numeral (text : Text) : AtomTree :=
  .num (bigIntOfString text)

/-- The operand after a plus or a minus. -/
def addend (kind : TokKind) (rhs : AtomTree) : AtomTree :=
  if kind = .minus then negate rhs else rhs

/-- The operand after a star or a slash. -/
def factor (kind : TokKind) (rhs : AtomTree) : AtomTree :=
  if kind = .slash then invert rhs else rhs

mutual

/-- An expression, from its first operand on. -/
def parseExpression (context : ParserContext) :
    ℕ → ℕ → State → Parsed
  | 0, _, _ => .error .outOfFuel
  | fuel + 1, minPrec, state => do
      let (lhs, state) ← parseUnary context fuel state
      parseOperators context fuel minPrec lhs state

/-- The operators and operands after the first one. -/
def parseOperators (context : ParserContext) :
    ℕ → ℕ → AtomTree → State → Parsed
  | 0, _, _, _ => .error .outOfFuel
  | fuel + 1, minPrec, lhs, state => do
      let kind := state.peek.kind
      if (kind = .plus ∨ kind = .minus) ∧ minPrec ≤ 1 then
        let (rhs, state) ← parseExpression context fuel 2 state.advance
        parseOperators context fuel minPrec (.mkAdd [lhs, addend kind rhs]) state
      else if (kind = .star ∨ kind = .slash) ∧ minPrec ≤ 2 then
        let (rhs, state) ← parseExpression context fuel 3 state.advance
        parseOperators context fuel minPrec (.mkMul [lhs, factor kind rhs]) state
      else if startsPrimary kind = true ∧ minPrec ≤ 2 then
        let (rhs, state) ← parseExpression context fuel 3 state
        parseOperators context fuel minPrec (.mkMul [lhs, rhs]) state
      else
        .ok (lhs, state)

/-- A sign and its operand, or a power; a minus and a numeral make one literal. -/
def parseUnary (context : ParserContext) :
    ℕ → State → Parsed
  | 0, _ => .error .outOfFuel
  | fuel + 1, state => do
      if state.peek.kind = .minus then
        if state.lookahead.kind = .number then
          let number := state.lookahead
          if number.text = [] then
            fail "empty numeric literal".toList number.pos
          else
            let base := numeral ('-' :: number.text)
            let state := state.advance.advance
            if state.peek.kind = .caret then
              let (exponent, state) ← parseUnary context fuel state.advance
              .ok (.pow base exponent, state)
            else
              .ok (base, state)
        else
          let (value, state) ← parseUnary context fuel state.advance
          .ok (negate value, state)
      else if state.peek.kind = .plus then
        parseUnary context fuel state.advance
      else
        parsePow context fuel state

/-- A primary and its exponent, if it has one. -/
def parsePow (context : ParserContext) :
    ℕ → State → Parsed
  | 0, _ => .error .outOfFuel
  | fuel + 1, state => do
      let (base, state) ← parsePrimary context fuel state
      if state.peek.kind = .caret then
        let (exponent, state) ← parseUnary context fuel state.advance
        .ok (.pow base exponent, state)
      else
        .ok (base, state)

/-- A numeral, a name, a call or a parenthesis. -/
def parsePrimary (context : ParserContext) :
    ℕ → State → Parsed
  | 0, _ => .error .outOfFuel
  | fuel + 1, state => do
      let token := state.peek
      match token.kind with
      | .number =>
          if token.text = [] then
            fail "empty numeric literal".toList token.pos
          else
            .ok (numeral token.text, state.advance)
      | .ident =>
          match SymbolTable.getSymbol state.table context.namespaceName
              token.text [] context.location with
          | .error error => .error (.symbolTable error)
          | .ok (symbol, table) =>
              let state : State := { state.advance with table := table }
              if state.peek.kind = .lParen then
                let (arguments, state) ←
                  parseArguments context fuel state.advance
                let state ←
                  state.expect .rParen
                    "expected ')' to close function call".toList
                .ok (.func symbol arguments, state)
              else
                .ok (.var symbol, state)
      | .lParen =>
          let (inner, state) ← parseExpression context fuel 1 state.advance
          let state ←
            state.expect .rParen
              "expected ')' to close parenthesized expression".toList
          .ok (inner, state)
      | _ => fail "expected a number, identifier, or '('".toList token.pos

/-- The arguments of a call, up to the closing parenthesis. -/
def parseArguments (context : ParserContext) :
    ℕ → State → Except ParseError (List AtomTree × State)
  | 0, _ => .error .outOfFuel
  | fuel + 1, state => do
      if state.peek.kind = .rParen then
        .ok ([], state)
      else
        let (first, state) ← parseExpression context fuel 1 state
        let (others, state) ← parseMoreArguments context fuel state
        .ok (first :: others, state)

/-- The arguments after a comma. -/
def parseMoreArguments (context : ParserContext) :
    ℕ → State → Except ParseError (List AtomTree × State)
  | 0, _ => .error .outOfFuel
  | fuel + 1, state => do
      if state.peek.kind = .comma then
        let (next, state) ← parseExpression context fuel 1 state.advance
        let (others, state) ← parseMoreArguments context fuel state
        .ok (next :: others, state)
      else
        .ok ([], state)

end

/-- A whole text: the tree, and the table after it. -/
def parse
    (context : ParserContext)
    (expression : Text)
    (table : Snapshot) :
    Except ParseError (AtomTree × Snapshot) := do
  let tokens ← tokenize expression
  if tokens.length = 1 then
    fail "empty expression".toList 0
  else
    let (result, state) ←
      parseExpression context (parserFuel tokens.length) 1 ⟨tokens, table⟩
    let state ← state.expect .finish "trailing input after expression".toList
    .ok (result, state.table)

section Follows

variable [StringHash]

/-- A parser state without its arena. -/
def read (state : ParserState) : State :=
  ⟨state.tokens, state.table⟩

/-- A slot of the tree, in an arena grown from that of the start, and the same cursor. -/
structure Follows
    (start : AtomStore)
    (result : ℕ × ParserState)
    (other : AtomTree × State) : Prop where
  built : Built start (result.1, result.2.store) other.1
  same : read result.2 = other.2

/-- The same for a list. -/
structure FollowsAll
    (start : AtomStore)
    (result : List ℕ × ParserState)
    (other : List AtomTree × State) : Prop where
  built : BuiltAll start (result.1, result.2.store) other.1
  same : read result.2 = other.2

/-- What is built is in its arena already. -/
theorem built_here
    {start : AtomStore}
    {slot : ℕ}
    {reached : AtomStore}
    {tree : AtomTree}
    (built : Built start (slot, reached) tree) :
    Built reached (slot, reached) tree :=
  ⟨built.invariant, Extends.refl reached, built.inside, built.tree_eq⟩

/-- A step from a later state. -/
theorem Follows.before
    {start middle : AtomStore}
    (growth : Extends start middle)
    {result : ℕ × ParserState}
    {other : AtomTree × State}
    (follows : Follows middle result other) :
    Follows start result other :=
  ⟨follows.built.trans growth, follows.same⟩

omit [StringHash] in
/-- An expected token is passed on both sides. -/
theorem related_expect
    (state : ParserState)
    (kind : TokKind)
    (message : Text) :
    Related (fun next other => next = state.advance ∧ other = (read state).advance)
      (state.expect kind message) ((read state).expect kind message) := by
  by_cases expected : state.peek.kind = kind
  · rw [ParserState.expect, State.expect, if_pos expected,
      if_pos (show (read state).peek.kind = kind from expected)]
    exact .ok ⟨rfl, rfl⟩
  · rw [ParserState.expect, State.expect, if_neg expected,
      if_neg (show ¬ (read state).peek.kind = kind from expected)]
    exact .error _

section Operands

variable {start : AtomStore} {lhs : ℕ} {lhsTree : AtomTree}
  {rhs : ℕ × AtomStore} {rhsTree : AtomTree}

/-- Two operands, of which the first was there already. -/
theorem builtAll_pair
    (lhsBuilt : Built start (lhs, start) lhsTree)
    (rhsBuilt : Built start rhs rhsTree) :
    BuiltAll start ([lhs, rhs.1], rhs.2) [lhsTree, rhsTree] :=
  lhsBuilt.cons (rhsBuilt.cons (builtAll_nil rhsBuilt.invariant))

/-- `negate` builds the negated tree. -/
theorem negate_built
    {state : ParserState}
    {slot : ℕ}
    {tree : AtomTree}
    (built : Built start (slot, state.store) tree) :
    Built start
      ((AtomCore.negate state slot).1, (AtomCore.negate state slot).2.store)
      (negate tree) := by
  have invariant := built.invariant
  have minusOne := num_built invariant (-1)
  have later : Built (state.store.num (-1)).2 (slot, (state.store.num (-1)).2) tree := by
    have kept := built_self minusOne.invariant (minusOne.growth.inside built.inside)
    rw [minusOne.tree_old invariant built.inside, built.tree_eq] at kept
    exact kept
  have operands := minusOne.cons (later.cons (builtAll_nil minusOne.invariant))
  exact operands.mul.trans built.growth

/-- `invert` builds the inverted tree. -/
theorem invert_built
    {state : ParserState}
    {slot : ℕ}
    {tree : AtomTree}
    (built : Built start (slot, state.store) tree) :
    Built start
      ((AtomCore.invert state slot).1, (AtomCore.invert state slot).2.store)
      (invert tree) :=
  built.pow (num_built built.invariant (-1))

end Operands

/-- What all parsing functions do with so much fuel. -/
structure ParserFollows (context : ParserContext) (fuel : ℕ) : Prop where
  expression
    {minPrec : ℕ}
    {state : ParserState} :
    state.store.Invariant →
    Related (Follows state.store)
      (AtomCore.parseExpression context fuel minPrec state)
      (parseExpression context fuel minPrec (read state))
  operators
    {minPrec lhs : ℕ}
    {tree : AtomTree}
    {state : ParserState} :
    Built state.store (lhs, state.store) tree →
    Related (Follows state.store)
      (AtomCore.parseOperators context fuel minPrec lhs state)
      (parseOperators context fuel minPrec tree (read state))
  unary
    {state : ParserState} :
    state.store.Invariant →
    Related (Follows state.store)
      (AtomCore.parseUnary context fuel state)
      (parseUnary context fuel (read state))
  pow
    {state : ParserState} :
    state.store.Invariant →
    Related (Follows state.store)
      (AtomCore.parsePow context fuel state)
      (parsePow context fuel (read state))
  primary
    {state : ParserState} :
    state.store.Invariant →
    Related (Follows state.store)
      (AtomCore.parsePrimary context fuel state)
      (parsePrimary context fuel (read state))
  arguments
    {state : ParserState} :
    state.store.Invariant →
    Related (FollowsAll state.store)
      (AtomCore.parseArguments context fuel state)
      (parseArguments context fuel (read state))
  moreArguments
    {state : ParserState} :
    state.store.Invariant →
    Related (FollowsAll state.store)
      (AtomCore.parseMoreArguments context fuel state)
      (parseMoreArguments context fuel (read state))

namespace ParserFollows

variable {context : ParserContext} {fuel : ℕ} {state : ParserState}

theorem expression_step
    (follows : ParserFollows context fuel)
    {minPrec : ℕ}
    (invariant : state.store.Invariant) :
    Related (Follows state.store)
      (AtomCore.parseExpression context (fuel + 1) minPrec state)
      (parseExpression context (fuel + 1) minPrec (read state)) := by
  rw [AtomCore.parseExpression, parseExpression]
  refine (follows.unary invariant).bind ?_
  rintro ⟨lhs, next⟩ ⟨tree, _⟩ ⟨built, rfl⟩
  refine (follows.operators (built_here built)).imp ?_
  intro result other later
  exact later.before built.growth

/-- One round of the loop: an operand, its adjustment, and a builder call on both. -/
theorem round
    (follows : ParserFollows context fuel)
    {minPrec operandPrec lhs : ℕ}
    {lhsTree : AtomTree}
    (lhsBuilt : Built state.store (lhs, state.store) lhsTree)
    (next : ParserState)
    (sameStore : next.store = state.store)
    (adjust : ℕ × ParserState → ℕ × ParserState)
    {adjustTree : AtomTree → AtomTree}
    (adjusts :
      ∀ {rhs : ℕ × ParserState} {rhsTree : AtomTree},
        Built state.store (rhs.1, rhs.2.store) rhsTree →
        Built state.store ((adjust rhs).1, (adjust rhs).2.store) (adjustTree rhsTree) ∧
          read (adjust rhs).2 = read rhs.2)
    {combine : AtomStore → List ℕ → ℕ × AtomStore}
    {combineTree : List AtomTree → AtomTree}
    (combines :
      ∀ {operands : List ℕ × AtomStore} {trees : List AtomTree},
        BuiltAll state.store operands trees →
        Built state.store (combine operands.2 operands.1) (combineTree trees)) :
    Related (Follows state.store)
      (AtomCore.parseExpression context fuel operandPrec next >>= fun rhs =>
        AtomCore.parseOperators context fuel minPrec
          ((adjust rhs).2.build (combine (adjust rhs).2.store [lhs, (adjust rhs).1])).1
          ((adjust rhs).2.build (combine (adjust rhs).2.store [lhs, (adjust rhs).1])).2)
      (parseExpression context fuel operandPrec (read next) >>= fun rhs =>
        parseOperators context fuel minPrec (combineTree [lhsTree, adjustTree rhs.1])
          rhs.2) := by
  refine (follows.expression (sameStore ▸ lhsBuilt.invariant)).bind ?_
  rintro rhs ⟨rhsTree, _⟩ ⟨rhsBuilt, rfl⟩
  rw [sameStore] at rhsBuilt
  obtain ⟨adjusted, sameCursor⟩ := adjusts rhsBuilt
  have combined := combines (builtAll_pair lhsBuilt adjusted)
  rw [← sameCursor]
  exact (follows.operators (built_here combined)).imp fun _ _ later =>
    later.before combined.growth

theorem operators_step
    (follows : ParserFollows context fuel)
    {minPrec lhs : ℕ}
    {lhsTree : AtomTree}
    (lhsBuilt : Built state.store (lhs, state.store) lhsTree) :
    Related (Follows state.store)
      (AtomCore.parseOperators context (fuel + 1) minPrec lhs state)
      (parseOperators context (fuel + 1) minPrec lhsTree (read state)) := by
  rw [AtomCore.parseOperators, parseOperators]
  simp only [show (read state).peek.kind = state.peek.kind from rfl, addend, factor]
  split_ifs
  · exact follows.round lhsBuilt state.advance rfl
      (fun rhs => AtomCore.negate rhs.2 rhs.1) (fun built => ⟨negate_built built, rfl⟩)
      BuiltAll.add
  · exact follows.round lhsBuilt state.advance rfl id
      (fun built => ⟨built, rfl⟩) BuiltAll.add
  · exact follows.round lhsBuilt state.advance rfl
      (fun rhs => AtomCore.invert rhs.2 rhs.1) (fun built => ⟨invert_built built, rfl⟩)
      BuiltAll.mul
  · exact follows.round lhsBuilt state.advance rfl id
      (fun built => ⟨built, rfl⟩) BuiltAll.mul
  · exact follows.round lhsBuilt state rfl id
      (fun built => ⟨built, rfl⟩) BuiltAll.mul
  · exact .ok ⟨lhsBuilt, rfl⟩

/-- A base that is built, and its exponent if a caret follows. -/
theorem power
    (follows : ParserFollows context fuel)
    (base : ℕ × ParserState)
    {baseTree : AtomTree}
    (baseBuilt : Built state.store (base.1, base.2.store) baseTree) :
    Related (Follows state.store)
      (if base.2.peek.kind = .caret then
        AtomCore.parseUnary context fuel base.2.advance >>= fun exponent =>
          .ok (exponent.2.build (exponent.2.store.pow base.1 exponent.1))
      else
        .ok base)
      (if (read base.2).peek.kind = .caret then
        parseUnary context fuel (read base.2).advance >>= fun exponent =>
          .ok (.pow baseTree exponent.1, exponent.2)
      else
        .ok (baseTree, read base.2)) := by
  by_cases caret : base.2.peek.kind = .caret
  · rw [if_pos caret, if_pos (show (read base.2).peek.kind = .caret from caret)]
    have passedInvariant : base.2.advance.store.Invariant := baseBuilt.invariant
    refine (follows.unary passedInvariant).bind ?_
    rintro exponent ⟨exponentTree, _⟩ ⟨exponentBuilt, rfl⟩
    exact .ok ⟨baseBuilt.pow exponentBuilt, rfl⟩
  · rw [if_neg caret, if_neg (show ¬ (read base.2).peek.kind = .caret from caret)]
    exact .ok ⟨baseBuilt, rfl⟩

theorem unary_step
    (follows : ParserFollows context fuel)
    (invariant : state.store.Invariant) :
    Related (Follows state.store)
      (AtomCore.parseUnary context (fuel + 1) state)
      (parseUnary context (fuel + 1) (read state)) := by
  rw [AtomCore.parseUnary, parseUnary]
  have passedInvariant : state.advance.store.Invariant := invariant
  by_cases minus : state.peek.kind = .minus
  · rw [if_pos minus, if_pos (show (read state).peek.kind = .minus from minus)]
    by_cases number : state.lookahead.kind = .number
    · rw [if_pos number, if_pos (show (read state).lookahead.kind = .number from number)]
      by_cases empty : state.lookahead.text = []
      · rw [if_pos empty, if_pos (show (read state).lookahead.text = [] from empty)]
        exact .error _
      · rw [if_neg empty, if_neg (show ¬ (read state).lookahead.text = [] from empty)]
        have literal := num_built invariant (bigIntOfString ('-' :: state.lookahead.text))
        exact follows.power
          (AtomCore.numeral state.advance.advance ('-' :: state.lookahead.text)) literal
    · rw [if_neg number, if_neg (show ¬ (read state).lookahead.kind = .number from number)]
      refine (follows.unary passedInvariant).bind ?_
      rintro value ⟨tree, _⟩ ⟨built, rfl⟩
      exact .ok ⟨negate_built built, rfl⟩
  · rw [if_neg minus, if_neg (show ¬ (read state).peek.kind = .minus from minus)]
    by_cases plus : state.peek.kind = .plus
    · rw [if_pos plus, if_pos (show (read state).peek.kind = .plus from plus)]
      exact follows.unary passedInvariant
    · rw [if_neg plus, if_neg (show ¬ (read state).peek.kind = .plus from plus)]
      exact follows.pow invariant

theorem pow_step
    (follows : ParserFollows context fuel)
    (invariant : state.store.Invariant) :
    Related (Follows state.store)
      (AtomCore.parsePow context (fuel + 1) state)
      (parsePow context (fuel + 1) (read state)) := by
  rw [AtomCore.parsePow, parsePow]
  refine (follows.primary invariant).bind ?_
  rintro base ⟨baseTree, _⟩ ⟨baseBuilt, rfl⟩
  exact follows.power base baseBuilt

/-- A closing token, after which the result is that of what it closes. -/
theorem closed
    (result : ℕ × ParserState)
    {tree : AtomTree}
    (built : Built state.store (result.1, result.2.store) tree)
    (kind : TokKind)
    (message : Text) :
    Related (Follows state.store)
      (result.2.expect kind message >>= fun next => .ok (result.1, next))
      ((read result.2).expect kind message >>= fun next => .ok (tree, next)) := by
  refine (related_expect result.2 kind message).bind ?_
  rintro _ _ ⟨rfl, rfl⟩
  exact .ok ⟨built, rfl⟩

/-- The names that follow are looked up in the same table. -/
theorem named
    (follows : ParserFollows context fuel)
    (state : ParserState)
    (invariant : state.store.Invariant)
    (symbol : Symbol) :
    Related (Follows state.store)
      (if state.peek.kind = .lParen then
        AtomCore.parseArguments context fuel state.advance >>= fun arguments =>
          arguments.2.expect .rParen "expected ')' to close function call".toList >>=
            fun next => .ok (next.build (next.store.func symbol arguments.1))
      else
        .ok (state.build (state.store.var symbol)))
      (if (read state).peek.kind = .lParen then
        parseArguments context fuel (read state).advance >>= fun arguments =>
          arguments.2.expect .rParen "expected ')' to close function call".toList >>=
            fun next => .ok (.func symbol arguments.1, next)
      else
        .ok (.var symbol, read state)) := by
  by_cases call : state.peek.kind = .lParen
  · rw [if_pos call, if_pos (show (read state).peek.kind = .lParen from call)]
    have passedInvariant : state.advance.store.Invariant := invariant
    refine (follows.arguments passedInvariant).bind ?_
    rintro arguments ⟨trees, _⟩ ⟨built, rfl⟩
    refine (related_expect arguments.2 _ _).bind ?_
    rintro _ _ ⟨rfl, rfl⟩
    exact .ok ⟨built.func symbol, rfl⟩
  · rw [if_neg call, if_neg (show ¬ (read state).peek.kind = .lParen from call)]
    exact .ok ⟨var_built invariant symbol, rfl⟩

theorem primary_step
    (follows : ParserFollows context fuel)
    (invariant : state.store.Invariant) :
    Related (Follows state.store)
      (AtomCore.parsePrimary context (fuel + 1) state)
      (parsePrimary context (fuel + 1) (read state)) := by
  rw [AtomCore.parsePrimary, parsePrimary]
  have passedInvariant : state.advance.store.Invariant := invariant
  simp only [show (read state).peek = state.peek from rfl]
  cases kind : state.peek.kind with
  | number =>
      by_cases empty : state.peek.text = []
      · simp only [if_pos empty]
        exact .error _
      · simp only [if_neg empty]
        exact .ok ⟨num_built invariant (bigIntOfString state.peek.text), rfl⟩
  | ident =>
      simp only [show (read state).table = state.table from rfl]
      cases SymbolTable.getSymbol state.table context.namespaceName state.peek.text []
          context.location with
      | error error =>
          exact .error _
      | ok found =>
          obtain ⟨symbol, table⟩ := found
          exact follows.named { state.advance with table := table } invariant symbol
  | lParen =>
      refine (follows.expression passedInvariant).bind ?_
      rintro inner ⟨tree, _⟩ ⟨built, rfl⟩
      exact closed inner built _ _
  | finish | plus | minus | star | slash | caret | rParen | comma =>
      exact .error _

/-- One argument before the others. -/
theorem argument
    (follows : ParserFollows context fuel)
    (invariant : state.store.Invariant) :
    Related (FollowsAll state.store)
      (AtomCore.parseExpression context fuel 1 state >>= fun first =>
        AtomCore.parseMoreArguments context fuel first.2 >>= fun others =>
          .ok (first.1 :: others.1, others.2))
      (parseExpression context fuel 1 (read state) >>= fun first =>
        parseMoreArguments context fuel first.2 >>= fun others =>
          .ok (first.1 :: others.1, others.2)) := by
  refine (follows.expression invariant).bind ?_
  rintro first ⟨tree, _⟩ ⟨firstBuilt, rfl⟩
  refine (follows.moreArguments firstBuilt.invariant).bind ?_
  rintro others ⟨trees, _⟩ ⟨othersBuilt, rfl⟩
  exact .ok ⟨firstBuilt.cons othersBuilt, rfl⟩

theorem arguments_step
    (follows : ParserFollows context fuel)
    (invariant : state.store.Invariant) :
    Related (FollowsAll state.store)
      (AtomCore.parseArguments context (fuel + 1) state)
      (parseArguments context (fuel + 1) (read state)) := by
  rw [AtomCore.parseArguments, parseArguments]
  by_cases done : state.peek.kind = .rParen
  · rw [if_pos done, if_pos (show (read state).peek.kind = .rParen from done)]
    exact .ok ⟨builtAll_nil invariant, rfl⟩
  · rw [if_neg done, if_neg (show ¬ (read state).peek.kind = .rParen from done)]
    exact follows.argument invariant

theorem moreArguments_step
    (follows : ParserFollows context fuel)
    (invariant : state.store.Invariant) :
    Related (FollowsAll state.store)
      (AtomCore.parseMoreArguments context (fuel + 1) state)
      (parseMoreArguments context (fuel + 1) (read state)) := by
  rw [AtomCore.parseMoreArguments, parseMoreArguments]
  have passedInvariant : state.advance.store.Invariant := invariant
  by_cases more : state.peek.kind = .comma
  · rw [if_pos more, if_pos (show (read state).peek.kind = .comma from more)]
    exact follows.argument passedInvariant
  · rw [if_neg more, if_neg (show ¬ (read state).peek.kind = .comma from more)]
    exact .ok ⟨builtAll_nil invariant, rfl⟩

end ParserFollows

/-- With any fuel the parser follows the one on trees. -/
theorem parserFollows
    (context : ParserContext)
    (fuel : ℕ) :
    ParserFollows context fuel := by
  induction fuel with
  | zero =>
      constructor <;> intros <;> exact .error _
  | succ fuel inductionHypothesis =>
      exact {
        expression := inductionHypothesis.expression_step
        operators := inductionHypothesis.operators_step
        unary := inductionHypothesis.unary_step
        pow := inductionHypothesis.pow_step
        primary := inductionHypothesis.primary_step
        arguments := inductionHypothesis.arguments_step
        moreArguments := inductionHypothesis.moreArguments_step }

/-- A slot of the tree in the grown arena, and the same symbol table. -/
structure Parses
    (store : AtomStore)
    (result : ℕ × ParserState)
    (other : AtomTree × Snapshot) : Prop where
  built : Built store (result.1, result.2.store) other.1
  table : result.2.table = other.2

/-- `parse` follows the parser on trees, on every arena. -/
theorem parse_follows
    (context : ParserContext)
    (expression : Text)
    {store : AtomStore}
    (invariant : store.Invariant)
    (table : Snapshot) :
    Related (Parses store)
      (AtomCore.parse context expression store table)
      (parse context expression table) := by
  rw [AtomCore.parse, parse]
  cases tokenize expression with
  | error error =>
      exact .error _
  | ok tokens =>
      by_cases empty : tokens.length = 1
      · simp only [Outcome.ok_bind, if_pos empty]
        exact .error _
      · simp only [Outcome.ok_bind, if_neg empty]
        have start : ({ tokens := tokens, store := store, table := table } :
            ParserState).store.Invariant := invariant
        refine ((parserFollows context (parserFuel tokens.length)).expression start).bind ?_
        rintro result ⟨tree, _⟩ ⟨built, rfl⟩
        refine (related_expect result.2 _ _).bind ?_
        rintro _ _ ⟨rfl, rfl⟩
        exact .ok ⟨built, rfl⟩

end Follows

end TreeParser

end AtomCore
