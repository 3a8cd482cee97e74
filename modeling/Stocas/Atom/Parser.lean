import Stocas.Atom.Builders
import Stocas.Atom.Tokenizer
import Stocas.Library.Outcome

namespace AtomCore

open SymbolTable (Snapshot SourceLocation Symbol Text)
open NumericaCore (bigIntOfString)

/-!
# The parser

The parser walks over the tokens with a cursor, builds atoms in a store as it
goes, and registers the names it meets.  The cursor is the list of tokens that
are left; the `End` token is the last one and is never passed.  The recursion
takes fuel, and `parse` gives it enough for its number of tokens.
-/

/-- What the parser reads besides its tokens. -/
structure ParserContext where
  namespaceName : Text
  /-- The place of the call of `get_symbol`, which error messages may show. -/
  location : SourceLocation

/-- `Parser`: the tokens from the cursor on, the store and the symbol table. -/
structure ParserState where
  tokens : List Token
  store : AtomStore
  table : Snapshot

/-- What a parsing function returns: the slot it built and the new state. -/
abbrev Parsed : Type := Except ParseError (Nat × ParserState)

namespace ParserState

/-- `peek`. -/
def peek (state : ParserState) : Token :=
  state.tokens.headD ⟨.finish, [], 0⟩

/-- The token after the next one. -/
def lookahead (state : ParserState) : Token :=
  state.tokens.tail.headD ⟨.finish, [], 0⟩

/-- `advance`, without the token it returns. -/
def advance (state : ParserState) : ParserState :=
  { state with tokens := state.tokens.tail }

/-- Take over the slot and the store that a builder returns. -/
def build (state : ParserState) (result : Nat × AtomStore) :
    Nat × ParserState :=
  (result.1, { state with store := result.2 })

/-- `expect`. -/
def expect (state : ParserState) (kind : TokKind) (message : Text) :
    Except ParseError ParserState :=
  if state.peek.kind = kind then
    .ok state.advance
  else
    fail message state.peek.pos

end ParserState

/-- `starts_primary`. -/
def startsPrimary (kind : TokKind) : Bool :=
  kind == .number || kind == .ident || kind == .lParen

section Parser

variable [StringHash]

/-- `negate`. -/
def negate (state : ParserState) (value : Nat) : Nat × ParserState :=
  let (minusOne, state) := state.build (state.store.num (-1))
  state.build (state.store.mul [minusOne, value])

/-- `store_.pow(rhs, store_.num(Rational(-1)))`, for a divisor. -/
def invert (state : ParserState) (value : Nat) : Nat × ParserState :=
  let (minusOne, state) := state.build (state.store.num (-1))
  state.build (state.store.pow value minusOne)

/-- `store_.num(Rational(BigInt(text)))`. -/
def numeral (state : ParserState) (text : Text) : Nat × ParserState :=
  state.build (state.store.num (bigIntOfString text))

mutual

/-- `parse_expression`, from its first operand on. -/
def parseExpression (context : ParserContext) :
    Nat → Nat → ParserState → Parsed
  | 0, _, _ => .error .outOfFuel
  | fuel + 1, minPrec, state => do
      let (lhs, state) ← parseUnary context fuel state
      parseOperators context fuel minPrec lhs state

/-- The loop of `parse_expression`. -/
def parseOperators (context : ParserContext) :
    Nat → Nat → Nat → ParserState → Parsed
  | 0, _, _, _ => .error .outOfFuel
  | fuel + 1, minPrec, lhs, state => do
      let kind := state.peek.kind
      if (kind = .plus ∨ kind = .minus) ∧ minPrec ≤ 1 then
        let (rhs, state) ← parseExpression context fuel 2 state.advance
        let (rhs, state) :=
          if kind = .minus then negate state rhs else (rhs, state)
        let (sum, state) := state.build (state.store.add [lhs, rhs])
        parseOperators context fuel minPrec sum state
      else if (kind = .star ∨ kind = .slash) ∧ minPrec ≤ 2 then
        let (rhs, state) ← parseExpression context fuel 3 state.advance
        let (rhs, state) :=
          if kind = .slash then invert state rhs else (rhs, state)
        let (product, state) := state.build (state.store.mul [lhs, rhs])
        parseOperators context fuel minPrec product state
      else if startsPrimary kind = true ∧ minPrec ≤ 2 then
        let (rhs, state) ← parseExpression context fuel 3 state
        let (product, state) := state.build (state.store.mul [lhs, rhs])
        parseOperators context fuel minPrec product state
      else
        .ok (lhs, state)

/-- `parse_unary`, with its special path for negative literals. -/
def parseUnary (context : ParserContext) :
    Nat → ParserState → Parsed
  | 0, _ => .error .outOfFuel
  | fuel + 1, state => do
      if state.peek.kind = .minus then
        if state.lookahead.kind = .number then
          let number := state.lookahead
          if number.text = [] then
            fail "empty numeric literal".toList number.pos
          else
            let (base, state) :=
              numeral state.advance.advance ('-' :: number.text)
            if state.peek.kind = .caret then
              let (exponent, state) ← parseUnary context fuel state.advance
              .ok (state.build (state.store.pow base exponent))
            else
              .ok (base, state)
        else
          let (value, state) ← parseUnary context fuel state.advance
          .ok (negate state value)
      else if state.peek.kind = .plus then
        parseUnary context fuel state.advance
      else
        parsePow context fuel state

/-- `parse_pow`. -/
def parsePow (context : ParserContext) :
    Nat → ParserState → Parsed
  | 0, _ => .error .outOfFuel
  | fuel + 1, state => do
      let (base, state) ← parsePrimary context fuel state
      if state.peek.kind = .caret then
        let (exponent, state) ← parseUnary context fuel state.advance
        .ok (state.build (state.store.pow base exponent))
      else
        .ok (base, state)

/-- `parse_primary`. -/
def parsePrimary (context : ParserContext) :
    Nat → ParserState → Parsed
  | 0, _ => .error .outOfFuel
  | fuel + 1, state => do
      let token := state.peek
      match token.kind with
      | .number =>
          if token.text = [] then
            fail "empty numeric literal".toList token.pos
          else
            .ok (numeral state.advance token.text)
      | .ident =>
          match SymbolTable.getSymbol state.table context.namespaceName
              token.text [] context.location with
          | .error error => .error (.symbolTable error)
          | .ok (symbol, table) =>
              let state : ParserState := { state.advance with table := table }
              if state.peek.kind = .lParen then
                let (arguments, state) ←
                  parseArguments context fuel state.advance
                let state ←
                  state.expect .rParen
                    "expected ')' to close function call".toList
                .ok (state.build (state.store.func symbol arguments))
              else
                .ok (state.build (state.store.var symbol))
      | .lParen =>
          let (inner, state) ← parseExpression context fuel 1 state.advance
          let state ←
            state.expect .rParen
              "expected ')' to close parenthesized expression".toList
          .ok (inner, state)
      | _ => fail "expected a number, identifier, or '('".toList token.pos

/-- The arguments of a call, up to the closing parenthesis. -/
def parseArguments (context : ParserContext) :
    Nat → ParserState → Except ParseError (List Nat × ParserState)
  | 0, _ => .error .outOfFuel
  | fuel + 1, state => do
      if state.peek.kind = .rParen then
        .ok ([], state)
      else
        let (first, state) ← parseExpression context fuel 1 state
        let (others, state) ← parseMoreArguments context fuel state
        .ok (first :: others, state)

/-- The loop over the arguments after a comma. -/
def parseMoreArguments (context : ParserContext) :
    Nat → ParserState → Except ParseError (List Nat × ParserState)
  | 0, _ => .error .outOfFuel
  | fuel + 1, state => do
      if state.peek.kind = .comma then
        let (next, state) ← parseExpression context fuel 1 state.advance
        let (others, state) ← parseMoreArguments context fuel state
        .ok (next :: others, state)
      else
        .ok ([], state)

end

/-- `parse_all`. -/
def parseAll (context : ParserContext) (fuel : Nat) (state : ParserState) :
    Parsed := do
  let (result, state) ← parseExpression context fuel 1 state
  let state ← state.expect .finish "trailing input after expression".toList
  .ok (result, state)

/-- Fuel for the nested calls that so many tokens can cause. -/
def parserFuel (tokenCount : Nat) : Nat :=
  5 * tokenCount + 5

/-- `parse`: the slot of the atom, with the store and the table after it. -/
def parse
    (context : ParserContext)
    (expression : Text)
    (store : AtomStore)
    (table : Snapshot) :
    Parsed := do
  let tokens ← tokenize expression
  if tokens.length = 1 then
    fail "empty expression".toList 0
  else
    parseAll context (parserFuel tokens.length)
      { tokens := tokens, store := store, table := table }

end Parser

end AtomCore
