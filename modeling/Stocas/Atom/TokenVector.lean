import Stocas.Atom.Parser

namespace AtomCore

open SymbolTable (Snapshot Symbol Text)
open NumericaCore (bigIntOfString)

/-!
# The parser over the vector of its tokens

The parser of the source keeps an index into the vector that the tokenizer filled, and
reads the vector at that index, or one further, without a bounds check.  Here every read is
checked, and the calls of `get_symbol` that return are listed as they are made.
-/

namespace TokenVector

/-- What ends a run: a read past the end of the vector, or what the parser throws. -/
inductive Failure where
  | outOfRange (index : Nat)
  | thrown (error : ParseError)
  deriving Repr, DecidableEq

/-- `fail`. -/
def failAt {α : Type} (message : Text) (pos : Nat) : Except Failure α :=
  (fail message pos).mapError .thrown

/-- `Parser`: the index, the store, the table, and the names that were looked up. -/
structure State where
  pos : Nat
  store : AtomStore
  table : Snapshot
  resolved : List (Text × Symbol)

/-- `tokens_[index]`. -/
def read (tokens : List Token) (index : Nat) : Except Failure Token :=
  match tokens[index]? with
  | some token => .ok token
  | none => .error (.outOfRange index)

namespace State

/-- `peek`. -/
def peek (state : State) (tokens : List Token) : Except Failure Token :=
  read tokens state.pos

/-- `tokens_[pos_ + 1]`. -/
def lookahead (state : State) (tokens : List Token) : Except Failure Token :=
  read tokens (state.pos + 1)

/-- `advance`. -/
def advance (state : State) (tokens : List Token) :
    Except Failure (Token × State) := do
  let token ← read tokens state.pos
  .ok (token, { state with pos := state.pos + 1 })

/-- `expect`. -/
def expect
    (state : State)
    (tokens : List Token)
    (kind : TokKind)
    (message : Text) :
    Except Failure State := do
  if (← state.peek tokens).kind ≠ kind then
    failAt message (← state.peek tokens).pos
  else
    let (_, state) ← state.advance tokens
    .ok state

/-- Take over the slot and the store that a builder returns. -/
def build (state : State) (result : Nat × AtomStore) : Nat × State :=
  (result.1, { state with store := result.2 })

/-- Take over the symbol and the table that `get_symbol` returns. -/
def resolve (state : State) (name : Text) (found : Symbol × Snapshot) : State :=
  { state with
    table := found.2
    resolved := state.resolved ++ [(name, found.1)] }

end State

section Parser

variable [StringHash]

/-- `negate`. -/
def negate (state : State) (value : Nat) : Nat × State :=
  let (minusOne, state) := state.build (state.store.num (-1))
  state.build (state.store.mul [minusOne, value])

/-- `store_.pow(rhs, store_.num(Rational(-1)))`, for a divisor. -/
def invert (state : State) (value : Nat) : Nat × State :=
  let (minusOne, state) := state.build (state.store.num (-1))
  state.build (state.store.pow value minusOne)

/-- `store_.num(Rational(BigInt(text)))`. -/
def numeral (state : State) (text : Text) : Nat × State :=
  state.build (state.store.num (bigIntOfString text))

mutual

/-- `parse_expression`, from its first operand on. -/
def parseExpression (tokens : List Token) (context : ParserContext) :
    Nat → Nat → State → Except Failure (Nat × State)
  | 0, _, _ => .error (.thrown .outOfFuel)
  | fuel + 1, minPrec, state => do
      let (lhs, state) ← parseUnary tokens context fuel state
      parseOperators tokens context fuel minPrec lhs state

/-- The loop of `parse_expression`. -/
def parseOperators (tokens : List Token) (context : ParserContext) :
    Nat → Nat → Nat → State → Except Failure (Nat × State)
  | 0, _, _, _ => .error (.thrown .outOfFuel)
  | fuel + 1, minPrec, lhs, state => do
      let kind := (← state.peek tokens).kind
      if (kind = .plus ∨ kind = .minus) ∧ minPrec ≤ 1 then
        let (_, state) ← state.advance tokens
        let (rhs, state) ← parseExpression tokens context fuel 2 state
        let (rhs, state) :=
          if kind = .minus then negate state rhs else (rhs, state)
        let (sum, state) := state.build (state.store.add [lhs, rhs])
        parseOperators tokens context fuel minPrec sum state
      else if (kind = .star ∨ kind = .slash) ∧ minPrec ≤ 2 then
        let (_, state) ← state.advance tokens
        let (rhs, state) ← parseExpression tokens context fuel 3 state
        let (rhs, state) :=
          if kind = .slash then invert state rhs else (rhs, state)
        let (product, state) := state.build (state.store.mul [lhs, rhs])
        parseOperators tokens context fuel minPrec product state
      else if startsPrimary kind = true ∧ minPrec ≤ 2 then
        let (rhs, state) ← parseExpression tokens context fuel 3 state
        let (product, state) := state.build (state.store.mul [lhs, rhs])
        parseOperators tokens context fuel minPrec product state
      else
        .ok (lhs, state)

/-- `parse_unary`, with its special path for negative literals. -/
def parseUnary (tokens : List Token) (context : ParserContext) :
    Nat → State → Except Failure (Nat × State)
  | 0, _ => .error (.thrown .outOfFuel)
  | fuel + 1, state => do
      if (← state.peek tokens).kind = .minus then
        if (← state.lookahead tokens).kind = .number then
          let (_, state) ← state.advance tokens
          let (number, state) ← state.advance tokens
          if number.text = [] then
            failAt "empty numeric literal".toList number.pos
          else
            let (base, state) := numeral state ('-' :: number.text)
            if (← state.peek tokens).kind = .caret then
              let (_, state) ← state.advance tokens
              let (exponent, state) ← parseUnary tokens context fuel state
              .ok (state.build (state.store.pow base exponent))
            else
              .ok (base, state)
        else
          let (_, state) ← state.advance tokens
          let (value, state) ← parseUnary tokens context fuel state
          .ok (negate state value)
      else if (← state.peek tokens).kind = .plus then
        let (_, state) ← state.advance tokens
        parseUnary tokens context fuel state
      else
        parsePow tokens context fuel state

/-- `parse_pow`. -/
def parsePow (tokens : List Token) (context : ParserContext) :
    Nat → State → Except Failure (Nat × State)
  | 0, _ => .error (.thrown .outOfFuel)
  | fuel + 1, state => do
      let (base, state) ← parsePrimary tokens context fuel state
      if (← state.peek tokens).kind = .caret then
        let (_, state) ← state.advance tokens
        let (exponent, state) ← parseUnary tokens context fuel state
        .ok (state.build (state.store.pow base exponent))
      else
        .ok (base, state)

/-- `parse_primary`. -/
def parsePrimary (tokens : List Token) (context : ParserContext) :
    Nat → State → Except Failure (Nat × State)
  | 0, _ => .error (.thrown .outOfFuel)
  | fuel + 1, state => do
      let token ← state.peek tokens
      match token.kind with
      | .number =>
          let (_, state) ← state.advance tokens
          if token.text = [] then
            failAt "empty numeric literal".toList token.pos
          else
            .ok (numeral state token.text)
      | .ident =>
          let (_, state) ← state.advance tokens
          match SymbolTable.getSymbol state.table context.namespaceName
              token.text [] context.location with
          | .error error => .error (.thrown (.symbolTable error))
          | .ok found =>
              let state := state.resolve token.text found
              if (← state.peek tokens).kind = .lParen then
                let (_, state) ← state.advance tokens
                let (arguments, state) ← parseArguments tokens context fuel state
                let state ←
                  state.expect tokens .rParen
                    "expected ')' to close function call".toList
                .ok (state.build (state.store.func found.1 arguments))
              else
                .ok (state.build (state.store.var found.1))
      | .lParen =>
          let (_, state) ← state.advance tokens
          let (inner, state) ← parseExpression tokens context fuel 1 state
          let state ←
            state.expect tokens .rParen
              "expected ')' to close parenthesized expression".toList
          .ok (inner, state)
      | _ => failAt "expected a number, identifier, or '('".toList token.pos

/-- The arguments of a call, up to the closing parenthesis. -/
def parseArguments (tokens : List Token) (context : ParserContext) :
    Nat → State → Except Failure (List Nat × State)
  | 0, _ => .error (.thrown .outOfFuel)
  | fuel + 1, state => do
      if (← state.peek tokens).kind = .rParen then
        .ok ([], state)
      else
        let (first, state) ← parseExpression tokens context fuel 1 state
        let (others, state) ← parseMoreArguments tokens context fuel state
        .ok (first :: others, state)

/-- The loop over the arguments after a comma. -/
def parseMoreArguments (tokens : List Token) (context : ParserContext) :
    Nat → State → Except Failure (List Nat × State)
  | 0, _ => .error (.thrown .outOfFuel)
  | fuel + 1, state => do
      if (← state.peek tokens).kind = .comma then
        let (_, state) ← state.advance tokens
        let (next, state) ← parseExpression tokens context fuel 1 state
        let (others, state) ← parseMoreArguments tokens context fuel state
        .ok (next :: others, state)
      else
        .ok ([], state)

end

/-- `parse_all`. -/
def parseAll
    (tokens : List Token)
    (context : ParserContext)
    (fuel : Nat)
    (state : State) :
    Except Failure (Nat × State) := do
  let (result, state) ← parseExpression tokens context fuel 1 state
  let state ←
    state.expect tokens .finish "trailing input after expression".toList
  .ok (result, state)

/-- `parse`: the slot of the atom, with the state in which the parser ends. -/
def parse
    (context : ParserContext)
    (expression : Text)
    (store : AtomStore)
    (table : Snapshot) :
    Except Failure (Nat × State) := do
  let tokens ← (tokenize expression).mapError .thrown
  if tokens.length = 1 then
    failAt "empty expression".toList 0
  else
    parseAll tokens context (parserFuel tokens.length)
      { pos := 0, store := store, table := table, resolved := [] }

end Parser

end TokenVector

end AtomCore
