import Stocas.Atom.GrammarReading
import Stocas.Atom.Parsed
import Stocas.Atom.TokenVector
import Stocas.Library.Simulation

namespace AtomCore

open SymbolTable (Snapshot Symbol Text)
open NumericaCore (bigIntOfString)

/-!
# Every read of the token vector is in range

The index stays on the vector because its last token is the end, which no parsing function
passes.  So the parser over the vector follows the one over the list of tokens that are
left: same results, same errors.  On the way the names that were passed are those that were
looked up, and the errors are syntax errors at places of the text, or conflicts of a name
with its registration.
-/

namespace TokenVector

/-- The names among some tokens, in order. -/
def identifiers (tokens : List Token) : List Text :=
  (tokens.filter fun token => token.kind == .ident).map Token.text

/-- A syntax error at a place up to a limit. -/
def SyntaxErrorUpTo (limit : Nat) (error : ParseError) : Prop :=
  ∃ message pos,
    pos ≤ limit ∧ error =
      .invalidArgument (message ++ " at position ".toList ++ (toString pos).toList)

/-- Tokens and errors of a scan are at places of the text. -/
structure Placed
    (limit : Nat)
    (outcome : Except ParseError (List Token)) : Prop where
  tokens {tokens : List Token} :
    outcome = .ok tokens → ∀ token ∈ tokens, token.pos ≤ limit
  errors : Outcome.OnlyThrows (SyntaxErrorUpTo limit) outcome

/-- The end of a text is a place of it. -/
theorem placed_finish
    {limit pos : Nat}
    (within : pos ≤ limit) :
    Placed limit (.ok [⟨.finish, [], pos⟩]) := by
  refine ⟨?_, Outcome.onlyThrows_ok⟩
  intro tokens tokens_eq token member
  cases tokens_eq
  rw [List.mem_singleton.mp member]
  exact within

/-- One token more in front of the others. -/
theorem Placed.cons
    {limit : Nat}
    {outcome : Except ParseError (List Token)}
    (placed : Placed limit outcome)
    {head : Token}
    (within : head.pos ≤ limit) :
    Placed limit (outcome.map fun tokens => head :: tokens) := by
  cases outcome with
  | error error =>
      refine ⟨?_, ?_⟩
      · intro tokens impossible
        cases impossible
      · intro other throws
        cases throws
        exact placed.errors error rfl
  | ok others =>
      refine ⟨?_, Outcome.onlyThrows_ok⟩
      intro tokens tokens_eq token member
      cases tokens_eq
      rcases List.mem_cons.mp member with isHead | isLater
      · rw [isHead]
        exact within
      · exact placed.tokens rfl token isLater

/-- The scanning loop stays on its text. -/
theorem placed_tokenizeFuel
    {limit : Nat}
    (fuel : Nat)
    (text : Text)
    (pos : Nat)
    (within : pos + text.length ≤ limit) :
    Placed limit (tokenizeFuel fuel text pos) := by
  induction fuel generalizing text pos with
  | zero =>
      exact placed_finish (Nat.le_of_add_right_le within)
  | succ fuel inductionHypothesis =>
      cases text with
      | nil =>
          exact placed_finish within
      | cons first rest =>
          have here : pos ≤ limit := Nat.le_of_add_right_le within
          have one : pos + 1 + rest.length ≤ limit := by
            rw [List.length_cons] at within
            omega
          have word
              (inside : Char → Bool) :
              pos + (first :: rest.takeWhile inside).length +
                  (rest.dropWhile inside).length ≤ limit := by
            have split : (rest.takeWhile inside).length +
                (rest.dropWhile inside).length = rest.length := by
              rw [← List.length_append, List.takeWhile_append_dropWhile]
            rw [List.length_cons]
            omega
          simp only [tokenizeFuel]
          split_ifs
          · exact inductionHypothesis _ _ one
          · exact (inductionHypothesis _ _ (word _)).cons here
          · exact (inductionHypothesis _ _ (word _)).cons here
          · cases punctuation? first with
            | none =>
                refine ⟨?_, ?_⟩
                · intro tokens impossible
                  cases impossible
                · intro error throws
                  cases throws
                  exact ⟨_, pos, here, rfl⟩
            | some kind =>
                exact (inductionHypothesis _ _ one).cons here

/-- Tokens and errors of the tokenizer are at places of its text. -/
theorem placed_tokenize
    (text : Text) :
    Placed text.length (tokenize text) :=
  placed_tokenizeFuel _ _ _ (Nat.zero_add _).le

/-- What a parse starts from, once its text has been scanned. -/
structure Input where
  tokens : List Token
  limit : Nat
  scanned : Scanned tokens
  positions : ∀ token ∈ tokens, token.pos ≤ limit
  context : ParserContext
  table : Snapshot

/-- The same state with a cursor instead of an index. -/
def State.view (state : State) (tokens : List Token) : ParserState where
  tokens := tokens.drop state.pos
  store := state.store
  table := state.table

/-- A table that lookups without attributes can make of the one at the start. -/
structure Grown (context : ParserContext) (start : Snapshot) (state : State) : Prop where
  consistent : state.table.Consistent
  growth : start.entries <+: state.table.entries
  later : ∀ entry ∈ state.table.entries, entry ∈ start.entries ∨ entry.attributes = []
  resolved :
    ∀ lookup ∈ state.resolved,
      PlainSymbol state.table context.namespaceName lookup.2 lookup.1

/-- A state in which a parse may be. -/
structure Good (input : Input) (state : State) : Prop where
  inside : state.pos < input.tokens.length
  grown : Grown input.context input.table state
  names :
    state.resolved.map Prod.fst = identifiers (input.tokens.take state.pos)

/-- An error of the parser, which ends a run over the vector, too. -/
inductive Expected (input : Input) : Failure → ParseError → Prop where
  | fuel :
      Expected input (.thrown .outOfFuel) .outOfFuel
  | syntaxError
      {error : ParseError} :
      SyntaxErrorUpTo input.limit error →
      Expected input (.thrown error) error
  | conflict
      {error : SymbolTable.TableError}
      {name : Text}
      {entry : SymbolTable.Entry} :
      name ∈ identifiers input.tokens →
      entry ∈ input.table.entries →
      entry.qualifiedName = SymbolTable.qualify input.context.namespaceName name →
      entry.attributes ≠ [] →
      Expected input (.thrown (.symbolTable error)) (.symbolTable error)

/-- A result over the vector, and the same result with a cursor. -/
def Same {α : Type} (input : Input) (result : α × State) (other : α × ParserState) :
    Prop :=
  result.1 = other.1 ∧ other.2 = result.2.view input.tokens ∧ Good input result.2

/-- A run over the vector follows the run with a cursor. -/
def Follows
    {α : Type}
    (input : Input)
    (run : Except Failure (α × State))
    (other : Except ParseError (α × ParserState)) : Prop :=
  Simulation.Simulates (Expected input) (Same input) run other

/-- The state after a token has been passed. -/
def State.passed (state : State) : State :=
  { state with pos := state.pos + 1 }

/-- Passing a token moves the index and the cursor. -/
theorem view_passed
    (state : State)
    (tokens : List Token) :
    state.passed.view tokens = (state.view tokens).advance := by
  simp [State.view, State.passed, ParserState.advance, List.tail_drop]

namespace Good

variable {input : Input} {state : State}

/-- The next token is the one at the index. -/
theorem peek_view (good : Good input state) :
    (state.view input.tokens).peek = input.tokens.get ⟨state.pos, good.inside⟩ := by
  simp only [State.view, ParserState.peek]
  rw [List.drop_eq_getElem_cons good.inside]
  rfl

/-- A read at the index gives the next token. -/
theorem read_pos (good : Good input state) :
    read input.tokens state.pos = .ok (state.view input.tokens).peek := by
  rw [good.peek_view, read, List.getElem?_eq_getElem good.inside]
  rfl

/-- `peek`. -/
theorem peek (good : Good input state) :
    state.peek input.tokens = .ok (state.view input.tokens).peek :=
  good.read_pos

/-- The next token is one of the vector. -/
theorem peek_mem (good : Good input state) :
    (state.view input.tokens).peek ∈ input.tokens := by
  rw [good.peek_view]
  exact List.get_mem _ _

/-- Past a token that is not the end there is another one. -/
theorem inside_succ
    (good : Good input state)
    (notEnd : (state.view input.tokens).peek.kind ≠ .finish) :
    state.pos + 1 < input.tokens.length := by
  obtain ⟨front, pos, tokens_eq, -⟩ := input.scanned.shape
  have inside := good.inside
  by_contra outside
  have isLast : state.pos = front.length := by
    simp only [tokens_eq, List.length_append, List.length_singleton] at inside outside
    omega
  apply notEnd
  simp [State.view, ParserState.peek, tokens_eq, isLast]

/-- The lookahead, behind a token that is not the end. -/
theorem lookahead
    (good : Good input state)
    (notEnd : (state.view input.tokens).peek.kind ≠ .finish) :
    state.lookahead input.tokens = .ok (state.view input.tokens).lookahead := by
  have inside := good.inside_succ notEnd
  simp only [State.lookahead, read, State.view, ParserState.lookahead,
    List.tail_drop]
  rw [List.getElem?_eq_getElem inside, List.drop_eq_getElem_cons inside]
  rfl

/-- `advance`. -/
theorem advance (good : Good input state) :
    state.advance input.tokens =
      .ok ((state.view input.tokens).peek, state.passed) := by
  rw [State.advance, good.read_pos]
  rfl

/-- The names up to the next index. -/
theorem identifiers_succ (good : Good input state) :
    identifiers (input.tokens.take (state.pos + 1)) =
      identifiers (input.tokens.take state.pos) ++
        identifiers [(state.view input.tokens).peek] := by
  rw [good.peek_view, List.take_add_one, List.getElem?_eq_getElem good.inside]
  simp only [identifiers, List.filter_append, List.map_append, Option.toList_some,
    List.get_eq_getElem]

/-- After a token that is neither a name nor the end the parser may go on. -/
theorem passed
    (good : Good input state)
    {kind : TokKind}
    (isKind : (state.view input.tokens).peek.kind = kind)
    (inner : kind ≠ .finish ∧ kind ≠ .ident) :
    Good input state.passed := by
  subst isKind
  refine ⟨good.inside_succ inner.1,
    ⟨good.grown.consistent, good.grown.growth, good.grown.later,
      good.grown.resolved⟩, ?_⟩
  have noName : identifiers [(state.view input.tokens).peek] = [] := by
    simp only [identifiers, List.filter_cons, beq_iff_eq, inner.2, if_false,
      List.filter_nil, List.map_nil]
  change _ = identifiers (input.tokens.take (state.pos + 1))
  rw [good.identifiers_succ, noName, List.append_nil]
  exact good.names

/-- A builder call leaves the index and the table alone. -/
theorem build
    (good : Good input state)
    (result : Nat × AtomStore) :
    Good input (state.build result).2 :=
  ⟨good.inside,
    ⟨good.grown.consistent, good.grown.growth, good.grown.later,
      good.grown.resolved⟩, good.names⟩

/-- The next name is an identifier. -/
theorem peek_name
    (good : Good input state)
    (isIdent : (state.view input.tokens).peek.kind = .ident) :
    IsIdentifier (state.view input.tokens).peek.text := by
  have spelled := input.scanned.spelled _ good.peek_mem
  rwa [isIdent] at spelled

/-- After a name that was looked up the parser may go on. -/
theorem named
    (good : Good input state)
    (isIdent : (state.view input.tokens).peek.kind = .ident)
    {found : Symbol × Snapshot}
    (returned :
      SymbolTable.getSymbol state.table input.context.namespaceName
          (state.view input.tokens).peek.text [] input.context.location =
        .ok found) :
    Good input
      (state.passed.resolve (state.view input.tokens).peek.text found) := by
  obtain ⟨consistent, growth, plain⟩ :=
    ParserDelivers.registered_plain good.grown.consistent returned
      (good.peek_name isIdent)
  have notEnd : (state.view input.tokens).peek.kind ≠ .finish := by
    rw [isIdent]
    exact TokKind.noConfusion
  refine ⟨good.inside_succ notEnd,
    ⟨consistent, good.grown.growth.trans growth, ?_, ?_⟩, ?_⟩
  · intro entry member
    rcases SymbolTable.getSymbol_cases returned with
      ⟨_, _, _, _, unchanged⟩ | ⟨_, _, appended⟩
    · exact good.grown.later entry (unchanged ▸ member)
    · have member := (congrArg Snapshot.entries appended) ▸ member
      rcases List.mem_append.mp member with isOld | isNew
      · exact good.grown.later entry isOld
      · rw [List.mem_singleton.mp isNew]
        exact Or.inr rfl
  · intro lookup member
    rcases List.mem_append.mp member with isOld | isNew
    · exact (good.grown.resolved lookup isOld).registered growth
    · rw [List.mem_singleton.mp isNew]
      exact plain
  · have isName :
        identifiers [(state.view input.tokens).peek] =
          [(state.view input.tokens).peek.text] := by
      simp only [identifiers, List.filter_cons, isIdent, beq_self_eq_true, if_true,
        List.filter_nil, List.map_cons, List.map_nil]
    have names := good.names
    simp only [State.resolve, State.passed, List.map_append, List.map_cons,
      List.map_nil, names, good.identifiers_succ, isName]

/-- A name that cannot be looked up was registered with attributes before. -/
theorem conflict
    (good : Good input state)
    (isIdent : (state.view input.tokens).peek.kind = .ident)
    {error : SymbolTable.TableError}
    (throws :
      SymbolTable.getSymbol state.table input.context.namespaceName
          (state.view input.tokens).peek.text [] input.context.location =
        .error error) :
    Expected input (.thrown (.symbolTable error)) (.symbolTable error) := by
  obtain ⟨entry, member, named, different⟩ :=
    SymbolTable.getSymbol_conflict good.grown.consistent throws
  have attributed : entry.attributes ≠ [] := by
    intro plain
    rw [plain, SymbolTable.sameAttributes_nil] at different
    cases different
  have occurs : (state.view input.tokens).peek.text ∈ identifiers input.tokens :=
    List.mem_map_of_mem
      (List.mem_filter.mpr ⟨good.peek_mem, beq_iff_eq.mpr isIdent⟩)
  exact .conflict occurs ((good.grown.later entry member).resolve_right attributed)
    named attributed

/-- An error at the next token. -/
theorem follows_fail
    {α : Type}
    (good : Good input state)
    (message : Text) :
    Follows (α := α) input
      (failAt message (state.view input.tokens).peek.pos)
      (fail message (state.view input.tokens).peek.pos) :=
  .error (.syntaxError
    ⟨message, _, input.positions _ good.peek_mem, rfl⟩)

/-- A result in a state in which the parser may go on. -/
theorem follows_ok
    {α : Type}
    (good : Good input state)
    (value : α) :
    Follows input (.ok (value, state)) (.ok (value, state.view input.tokens)) :=
  .ok ⟨rfl, rfl, good⟩

/-- An expected token that is not the end. -/
theorem follows_expect
    {α : Type}
    (good : Good input state)
    {kind : TokKind}
    (inner : kind ≠ .finish ∧ kind ≠ .ident)
    (message : Text)
    {next : State → Except Failure (α × State)}
    {other : ParserState → Except ParseError (α × ParserState)}
    (goesOn :
      ∀ later, Good input later →
        Follows input (next later) (other (later.view input.tokens))) :
    Follows input
      (state.expect input.tokens kind message >>= next)
      ((state.view input.tokens).expect kind message >>= other) := by
  simp only [State.expect, ParserState.expect, good.peek, good.advance,
    Outcome.ok_bind]
  by_cases isKind : (state.view input.tokens).peek.kind = kind
  · rw [if_neg (not_not.mpr isKind), if_pos isKind, Outcome.ok_bind]
    have passed := goesOn _ (good.passed isKind inner)
    rwa [view_passed] at passed
  · rw [if_pos isKind, if_neg isKind]
    exact good.follows_fail message

end Good

section Parser

variable [StringHash]

/-- What all parsing functions do with so much fuel. -/
structure ParserFollows (input : Input) (fuel : Nat) : Prop where
  expression
    {minPrec : Nat}
    {state : State} :
    Good input state →
    Follows input
      (parseExpression input.tokens input.context fuel minPrec state)
      (AtomCore.parseExpression input.context fuel minPrec (state.view input.tokens))
  operators
    {minPrec lhs : Nat}
    {state : State} :
    Good input state →
    Follows input
      (parseOperators input.tokens input.context fuel minPrec lhs state)
      (AtomCore.parseOperators input.context fuel minPrec lhs
        (state.view input.tokens))
  unary
    {state : State} :
    Good input state →
    Follows input
      (parseUnary input.tokens input.context fuel state)
      (AtomCore.parseUnary input.context fuel (state.view input.tokens))
  pow
    {state : State} :
    Good input state →
    Follows input
      (parsePow input.tokens input.context fuel state)
      (AtomCore.parsePow input.context fuel (state.view input.tokens))
  primary
    {state : State} :
    Good input state →
    Follows input
      (parsePrimary input.tokens input.context fuel state)
      (AtomCore.parsePrimary input.context fuel (state.view input.tokens))
  arguments
    {state : State} :
    Good input state →
    Follows input
      (parseArguments input.tokens input.context fuel state)
      (AtomCore.parseArguments input.context fuel (state.view input.tokens))
  moreArguments
    {state : State} :
    Good input state →
    Follows input
      (parseMoreArguments input.tokens input.context fuel state)
      (AtomCore.parseMoreArguments input.context fuel (state.view input.tokens))

namespace ParserFollows

variable {input : Input} {fuel : Nat} {state : State}

omit [StringHash] in
/-- A first step and the rest, on states that belong together. -/
theorem next
    {α β : Type}
    {run : Except Failure (α × State)}
    {other : Except ParseError (α × ParserState)}
    {continue_ : α × State → Except Failure (β × State)}
    {otherContinue : α × ParserState → Except ParseError (β × ParserState)}
    (first : Follows input run other)
    (rest :
      ∀ value later, Good input later →
        Follows input (continue_ (value, later))
          (otherContinue (value, later.view input.tokens))) :
    Follows input (run >>= continue_) (other >>= otherContinue) := by
  refine first.bind ?_
  rintro ⟨value, later⟩ ⟨otherValue, otherLater⟩ ⟨sameValue, sameState, good⟩
  cases sameValue
  cases sameState
  exact rest value later good

/-- `parse_expression`. -/
theorem expression_step
    (follows : ParserFollows input fuel)
    (good : Good input state)
    {minPrec : Nat} :
    Follows input
      (parseExpression input.tokens input.context (fuel + 1) minPrec state)
      (AtomCore.parseExpression input.context (fuel + 1) minPrec
        (state.view input.tokens)) := by
  simp only [parseExpression, AtomCore.parseExpression]
  exact next (follows.unary good) fun _ _ later => follows.operators later

/-- A right operand, the builder calls on both, and the rest of the loop. -/
theorem round
    (follows : ParserFollows input fuel)
    (good : Good input state)
    {minPrec operandPrec : Nat}
    {combine : Nat × State → Nat × State}
    {otherCombine : Nat × ParserState → Nat × ParserState}
    (combines :
      ∀ value later, Good input later →
        Same input (combine (value, later))
          (otherCombine (value, later.view input.tokens))) :
    Follows input
      (parseExpression input.tokens input.context fuel operandPrec state >>=
        fun rhs =>
          parseOperators input.tokens input.context fuel minPrec (combine rhs).1
            (combine rhs).2)
      (AtomCore.parseExpression input.context fuel operandPrec
          (state.view input.tokens) >>= fun rhs =>
        AtomCore.parseOperators input.context fuel minPrec (otherCombine rhs).1
          (otherCombine rhs).2) := by
  refine next (follows.expression good) ?_
  intro value later laterGood
  obtain ⟨sameValue, sameState, combined⟩ := combines value later laterGood
  rw [← sameValue, sameState]
  exact follows.operators combined

/-- The loop of `parse_expression`. -/
theorem operators_step
    (follows : ParserFollows input fuel)
    (good : Good input state)
    {minPrec lhs : Nat} :
    Follows input
      (parseOperators input.tokens input.context (fuel + 1) minPrec lhs state)
      (AtomCore.parseOperators input.context (fuel + 1) minPrec lhs
        (state.view input.tokens)) := by
  have build
      (later : State)
      (laterGood : Good input later)
      (result : Nat × AtomStore) :
      Same input (later.build result) ((later.view input.tokens).build result) :=
    ⟨rfl, rfl, laterGood.build result⟩
  have passed
      (kind : TokKind)
      (isKind : (state.view input.tokens).peek.kind = kind)
      (inner : kind ≠ .finish ∧ kind ≠ .ident) :=
    good.passed isKind inner
  simp only [parseOperators, AtomCore.parseOperators, good.peek, good.advance,
    Outcome.ok_bind]
  split_ifs with additive isMinus multiplicative isSlash implicit
  · have advanced := passed .minus isMinus (by decide)
    rw [← view_passed]
    exact follows.round advanced fun value later laterGood =>
      ⟨rfl, rfl, (((laterGood.build _).build _).build _)⟩
  · have isPlus := additive.1.resolve_right isMinus
    have advanced := passed .plus isPlus (by decide)
    rw [← view_passed]
    exact follows.round advanced fun value later laterGood => build later laterGood _
  · have advanced := passed .slash isSlash (by decide)
    rw [← view_passed]
    exact follows.round advanced fun value later laterGood =>
      ⟨rfl, rfl, (((laterGood.build _).build _).build _)⟩
  · have isStar := multiplicative.1.resolve_right isSlash
    have advanced := passed .star isStar (by decide)
    rw [← view_passed]
    exact follows.round advanced fun value later laterGood => build later laterGood _
  · exact follows.round good fun value later laterGood => build later laterGood _
  · exact good.follows_ok lhs

/-- A base, and its exponent if there is one. -/
theorem raises
    (follows : ParserFollows input fuel)
    (good : Good input state)
    (base : Nat) :
    Follows input
      (state.peek input.tokens >>= fun token =>
        if token.kind = .caret then
          state.advance input.tokens >>= fun passed =>
            parseUnary input.tokens input.context fuel passed.2 >>= fun exponent =>
              .ok (exponent.2.build (exponent.2.store.pow base exponent.1))
        else
          .ok (base, state))
      (if (state.view input.tokens).peek.kind = .caret then
        AtomCore.parseUnary input.context fuel (state.view input.tokens).advance >>=
          fun exponent =>
            .ok (exponent.2.build (exponent.2.store.pow base exponent.1))
      else
        .ok (base, state.view input.tokens)) := by
  rw [good.peek, Outcome.ok_bind]
  by_cases caret : (state.view input.tokens).peek.kind = .caret
  · have advanced := good.passed caret (by decide)
    rw [if_pos caret, if_pos caret, good.advance, Outcome.ok_bind, ← view_passed]
    exact next (follows.unary advanced) fun value later laterGood =>
      (laterGood.build _).follows_ok _
  · rw [if_neg caret, if_neg caret]
    exact good.follows_ok base

/-- `parse_unary`. -/
theorem unary_step
    (follows : ParserFollows input fuel)
    (good : Good input state) :
    Follows input
      (parseUnary input.tokens input.context (fuel + 1) state)
      (AtomCore.parseUnary input.context (fuel + 1) (state.view input.tokens)) := by
  simp only [parseUnary, AtomCore.parseUnary, good.peek, Outcome.ok_bind]
  by_cases minus : (state.view input.tokens).peek.kind = .minus
  · have notEnd : (state.view input.tokens).peek.kind ≠ .finish := by
      rw [minus]
      exact TokKind.noConfusion
    have advanced := good.passed minus (by decide)
    have lookahead_eq :
        (state.view input.tokens).lookahead =
          (state.passed.view input.tokens).peek := by
      rw [view_passed]
      rfl
    rw [if_pos minus, if_pos minus]
    simp only [good.lookahead notEnd, good.advance, Outcome.ok_bind]
    rw [lookahead_eq, ← view_passed]
    by_cases number : (state.passed.view input.tokens).peek.kind = .number
    · have literal := advanced.passed number (by decide)
      rw [if_pos number, if_pos number, advanced.advance, Outcome.ok_bind]
      by_cases empty : (state.passed.view input.tokens).peek.text = []
      · rw [if_pos empty, if_pos empty]
        exact advanced.follows_fail _
      · rw [if_neg empty, if_neg empty, ← view_passed]
        exact follows.raises (literal.build _) _
    · rw [if_neg number, if_neg number]
      exact next (follows.unary advanced) fun value later laterGood =>
        ((laterGood.build _).build _).follows_ok _
  · rw [if_neg minus, if_neg minus]
    by_cases plus : (state.view input.tokens).peek.kind = .plus
    · have advanced := good.passed plus (by decide)
      rw [if_pos plus, if_pos plus, good.advance, Outcome.ok_bind, ← view_passed]
      exact follows.unary advanced
    · rw [if_neg plus, if_neg plus]
      exact follows.pow good

/-- `parse_pow`. -/
theorem pow_step
    (follows : ParserFollows input fuel)
    (good : Good input state) :
    Follows input
      (parsePow input.tokens input.context (fuel + 1) state)
      (AtomCore.parsePow input.context (fuel + 1) (state.view input.tokens)) := by
  simp only [parsePow, AtomCore.parsePow]
  exact next (follows.primary good) fun base later laterGood =>
    follows.raises laterGood base

omit [StringHash] in
/-- A closing parenthesis is neither the end nor a name. -/
theorem closing : TokKind.rParen ≠ .finish ∧ TokKind.rParen ≠ .ident :=
  ⟨TokKind.noConfusion, TokKind.noConfusion⟩

/-- A name, and the arguments if it is called. -/
theorem name
    (follows : ParserFollows input fuel)
    (good : Good input state)
    (symbol : Symbol) :
    Follows input
      (state.peek input.tokens >>= fun token =>
        if token.kind = .lParen then
          state.advance input.tokens >>= fun passed =>
            parseArguments input.tokens input.context fuel passed.2 >>= fun arguments =>
              arguments.2.expect input.tokens .rParen
                  "expected ')' to close function call".toList >>= fun closed =>
                .ok (closed.build (closed.store.func symbol arguments.1))
        else
          .ok (state.build (state.store.var symbol)))
      (if (state.view input.tokens).peek.kind = .lParen then
        AtomCore.parseArguments input.context fuel
            (state.view input.tokens).advance >>= fun arguments =>
          arguments.2.expect .rParen
              "expected ')' to close function call".toList >>= fun closed =>
            .ok (closed.build (closed.store.func symbol arguments.1))
      else
        .ok ((state.view input.tokens).build
          ((state.view input.tokens).store.var symbol))) := by
  rw [good.peek, Outcome.ok_bind]
  by_cases isCall : (state.view input.tokens).peek.kind = .lParen
  · have advanced := good.passed isCall (by decide)
    rw [if_pos isCall, if_pos isCall, good.advance, Outcome.ok_bind, ← view_passed]
    refine next (follows.arguments advanced) fun slots later laterGood => ?_
    refine laterGood.follows_expect closing _ ?_
    intro closed closedGood
    exact (closedGood.build _).follows_ok _
  · rw [if_neg isCall, if_neg isCall]
    exact (good.build _).follows_ok _

/-- `parse_primary`. -/
theorem primary_step
    (follows : ParserFollows input fuel)
    (good : Good input state) :
    Follows input
      (parsePrimary input.tokens input.context (fuel + 1) state)
      (AtomCore.parsePrimary input.context (fuel + 1) (state.view input.tokens)) := by
  simp only [parsePrimary, AtomCore.parsePrimary, good.peek, good.advance,
    Outcome.ok_bind]
  cases isKind : (state.view input.tokens).peek.kind with
  | number =>
      have advanced := good.passed isKind (by decide)
      dsimp only
      by_cases empty : (state.view input.tokens).peek.text = []
      · rw [if_pos empty, if_pos empty]
        exact good.follows_fail _
      · rw [if_neg empty, if_neg empty, ← view_passed]
        exact (advanced.build _).follows_ok _
  | ident =>
      dsimp only
      cases returned :
          SymbolTable.getSymbol state.table input.context.namespaceName
            (state.view input.tokens).peek.text [] input.context.location with
      | error error =>
          have sameThrows :
              SymbolTable.getSymbol (state.view input.tokens).table
                input.context.namespaceName (state.view input.tokens).peek.text []
                input.context.location = .error error :=
            returned
          have passedThrows :
              SymbolTable.getSymbol state.passed.table
                input.context.namespaceName (state.view input.tokens).peek.text []
                input.context.location = .error error :=
            returned
          rw [sameThrows, passedThrows]
          exact .error (good.conflict isKind returned)
      | ok found =>
          have sameReturns :
              SymbolTable.getSymbol (state.view input.tokens).table
                input.context.namespaceName (state.view input.tokens).peek.text []
                input.context.location = .ok found :=
            returned
          have passedReturns :
              SymbolTable.getSymbol state.passed.table
                input.context.namespaceName (state.view input.tokens).peek.text []
                input.context.location = .ok found :=
            returned
          rw [sameReturns, passedReturns, ← view_passed]
          exact follows.name (good.named isKind returned) found.1
  | lParen =>
      have advanced := good.passed isKind (by decide)
      dsimp only
      rw [← view_passed]
      refine next (follows.expression advanced) fun inner later laterGood => ?_
      refine laterGood.follows_expect closing _ ?_
      intro closed closedGood
      exact closedGood.follows_ok _
  | _ =>
      exact good.follows_fail _

/-- An argument, and those after it. -/
theorem argument
    (follows : ParserFollows input fuel)
    (good : Good input state) :
    Follows input
      (parseExpression input.tokens input.context fuel 1 state >>= fun first =>
        parseMoreArguments input.tokens input.context fuel first.2 >>= fun others =>
          .ok (first.1 :: others.1, others.2))
      (AtomCore.parseExpression input.context fuel 1 (state.view input.tokens) >>=
        fun first =>
          AtomCore.parseMoreArguments input.context fuel first.2 >>= fun others =>
            .ok (first.1 :: others.1, others.2)) :=
  next (follows.expression good) fun _ _ firstGood =>
    next (follows.moreArguments firstGood) fun _ _ othersGood =>
      othersGood.follows_ok _

/-- The arguments of a call. -/
theorem arguments_step
    (follows : ParserFollows input fuel)
    (good : Good input state) :
    Follows input
      (parseArguments input.tokens input.context (fuel + 1) state)
      (AtomCore.parseArguments input.context (fuel + 1) (state.view input.tokens)) := by
  simp only [parseArguments, AtomCore.parseArguments, good.peek, Outcome.ok_bind]
  by_cases none : (state.view input.tokens).peek.kind = .rParen
  · rw [if_pos none, if_pos none]
    exact good.follows_ok []
  · rw [if_neg none, if_neg none]
    exact follows.argument good

/-- The arguments after a comma. -/
theorem moreArguments_step
    (follows : ParserFollows input fuel)
    (good : Good input state) :
    Follows input
      (parseMoreArguments input.tokens input.context (fuel + 1) state)
      (AtomCore.parseMoreArguments input.context (fuel + 1)
        (state.view input.tokens)) := by
  simp only [parseMoreArguments, AtomCore.parseMoreArguments, good.peek, good.advance,
    Outcome.ok_bind]
  by_cases comma : (state.view input.tokens).peek.kind = .comma
  · have advanced := good.passed comma (by decide)
    rw [if_pos comma, if_pos comma, ← view_passed]
    exact follows.argument advanced
  · rw [if_neg comma, if_neg comma]
    exact good.follows_ok []

end ParserFollows

/-- With any fuel the parsing functions follow those with a cursor. -/
theorem parserFollows
    (input : Input)
    (fuel : Nat) :
    ParserFollows input fuel := by
  induction fuel with
  | zero =>
      exact ⟨fun _ => .error .fuel, fun _ => .error .fuel, fun _ => .error .fuel,
        fun _ => .error .fuel, fun _ => .error .fuel, fun _ => .error .fuel,
        fun _ => .error .fuel⟩
  | succ fuel inductionHypothesis =>
      exact {
        expression := fun good => inductionHypothesis.expression_step good
        operators := fun good => inductionHypothesis.operators_step good
        unary := inductionHypothesis.unary_step
        pow := inductionHypothesis.pow_step
        primary := inductionHypothesis.primary_step
        arguments := inductionHypothesis.arguments_step
        moreArguments := inductionHypothesis.moreArguments_step }

/-- A result after all tokens, and the same result with a cursor. -/
structure Ends
    (input : Input)
    (result : Nat × State)
    (other : Nat × ParserState) : Prop where
  slot : result.1 = other.1
  view : other.2 = result.2.view input.tokens
  consumed : result.2.pos = input.tokens.length
  grown : Grown input.context input.table result.2
  names : result.2.resolved.map Prod.fst = identifiers input.tokens

omit [StringHash] in
/-- At the end the next index is the size of the vector. -/
theorem Good.last
    {input : Input}
    {state : State}
    (good : Good input state)
    (atEnd : (state.view input.tokens).peek.kind = .finish) :
    state.pos + 1 = input.tokens.length := by
  obtain ⟨front, pos, tokens_eq, inner⟩ := input.scanned.shape
  have inside := good.inside
  rw [good.peek_view] at atEnd
  have length_eq : input.tokens.length = front.length + 1 := by
    simp [tokens_eq]
  by_contra notLast
  have inFront : state.pos < front.length := by
    omega
  have isInner : input.tokens.get ⟨state.pos, good.inside⟩ ∈ front := by
    simp only [List.get_eq_getElem, tokens_eq, List.getElem_append_left inFront]
    exact List.getElem_mem inFront
  exact (inner _ isInner).1 atEnd

/-- `parse_all`. -/
theorem follows_parseAll
    {input : Input}
    {state : State}
    (good : Good input state)
    (fuel : Nat) :
    Simulation.Simulates (Expected input) (Ends input)
      (parseAll input.tokens input.context fuel state)
      (AtomCore.parseAll input.context fuel (state.view input.tokens)) := by
  simp only [parseAll, AtomCore.parseAll]
  refine ((parserFollows input fuel).expression good).bind ?_
  rintro ⟨slot, later⟩ ⟨otherSlot, otherLater⟩ ⟨sameSlot, sameState, laterGood⟩
  have laterGood : Good input later := laterGood
  have sameState : otherLater = later.view input.tokens := sameState
  subst sameState
  cases sameSlot
  simp only [State.expect, ParserState.expect, laterGood.peek, laterGood.advance,
    Outcome.ok_bind]
  by_cases atEnd : (later.view input.tokens).peek.kind = .finish
  · have last := laterGood.last atEnd
    have notName :
        identifiers [(later.view input.tokens).peek] = [] := by
      simp only [identifiers, List.filter_cons, atEnd]
      rfl
    have names := laterGood.identifiers_succ
    rw [last, List.take_length, notName, List.append_nil, ← laterGood.names] at names
    rw [if_neg (not_not.mpr atEnd), if_pos atEnd, ← view_passed]
    exact .ok ⟨rfl, rfl, last, ⟨laterGood.grown.consistent, laterGood.grown.growth,
      laterGood.grown.later, laterGood.grown.resolved⟩, names.symm⟩
  · rw [if_pos atEnd, if_neg atEnd]
    exact .error (.syntaxError
      ⟨_, _, input.positions _ laterGood.peek_mem, rfl⟩)

/-- What a run of the parser on a text may be. -/
inductive Outcomes
    (context : ParserContext)
    (text : Text)
    (table : Snapshot) :
    Except Failure (Nat × State) → Except ParseError (Nat × ParserState) → Prop where
  | throws
      {error : ParseError} :
      SyntaxErrorUpTo text.length error →
      Outcomes context text table (.error (.thrown error)) (.error error)
  | runs
      {input : Input}
      {run : Except Failure (Nat × State)}
      {other : Except ParseError (Nat × ParserState)} :
      tokenize text = .ok input.tokens →
      input.limit = text.length →
      input.context = context →
      input.table = table →
      Simulation.Simulates (Expected input) (Ends input) run other →
      Outcomes context text table run other

/-- `parse` follows the one with a cursor. -/
theorem parse_outcomes
    {table : Snapshot}
    (consistent : table.Consistent)
    (context : ParserContext)
    (text : Text)
    (store : AtomStore) :
    Outcomes context text table
      (parse context text store table)
      (AtomCore.parse context text store table) := by
  have placed := placed_tokenize text
  unfold parse AtomCore.parse
  cases tokenized : tokenize text with
  | error error =>
      exact .throws (placed.errors error tokenized)
  | ok tokens =>
      rw [Outcome.ok_mapError, Outcome.ok_bind, Outcome.ok_bind]
      let input : Input :=
        ⟨tokens, text.length, tokenizeFuel_scanned tokenized,
          placed.tokens tokenized, context, table⟩
      by_cases empty : tokens.length = 1
      · rw [if_pos empty, if_pos empty]
        exact .throws ⟨_, 0, Nat.zero_le _, rfl⟩
      · rw [if_neg empty, if_neg empty]
        have nonempty : 0 < tokens.length := by
          obtain ⟨front, pos, tokens_eq, -⟩ := input.scanned.shape
          have tokens_eq : tokens = front ++ [⟨.finish, [], pos⟩] := tokens_eq
          simp [tokens_eq]
        have good :
            Good input { pos := 0, store := store, table := table, resolved := [] } :=
          ⟨nonempty, ⟨consistent, List.prefix_rfl, fun _ => Or.inl, nofun⟩, rfl⟩
        exact @Outcomes.runs context text table input _ _ tokenized rfl rfl rfl
          (follows_parseAll good (parserFuel tokens.length))

/--
A parse in a namespace without attributes ends: with an atom after all tokens, or with a
syntax error at a place of its text.  No read of the token vector is out of range.
-/
theorem parse_safe
    {table : Snapshot}
    (registered : table.Reachable)
    {context : ParserContext}
    (plain :
      ∀ entry ∈ table.entries, ∀ name,
        entry.qualifiedName = SymbolTable.qualify context.namespaceName name →
        entry.attributes = [])
    (text : Text)
    (store : AtomStore) :
    (∃ tokens slot state,
      tokenize text = .ok tokens ∧
        parse context text store table = .ok (slot, state) ∧
        state.pos = tokens.length) ∨
      ∃ message pos,
        parse context text store table = failAt message pos ∧ pos ≤ text.length := by
  have keepsFuel : KeepsFuel (AtomCore.parse context text store table) :=
    parse_keepsFuel text store table
  have outcomes := parse_outcomes registered.consistent context text store
  generalize parse context text store table = run at outcomes ⊢
  generalize AtomCore.parse context text store table = other at outcomes keepsFuel
  cases outcomes with
  | throws placed =>
      obtain ⟨message, pos, within, error_eq⟩ := placed
      subst error_eq
      exact Or.inr ⟨message, pos, rfl, within⟩
  | runs tokenized limit_eq context_eq table_eq simulates =>
      cases simulates with
      | ok ends =>
          exact Or.inl ⟨_, _, _, tokenized, rfl, ends.consumed⟩
      | error expected =>
          cases expected with
          | fuel =>
              exact absurd rfl (keepsFuel _ rfl)
          | syntaxError placed =>
              obtain ⟨message, pos, within, error_eq⟩ := placed
              subst error_eq
              exact Or.inr ⟨message, pos, rfl, limit_eq ▸ within⟩
          | conflict _ member named attributed =>
              rw [table_eq] at member
              rw [context_eq] at named
              exact absurd (plain _ member _ named) attributed

end Parser

/-- A table with one name, which was registered as symmetric. -/
def symmetricTable (namespaceName name : Text) : Snapshot where
  entries := [⟨SymbolTable.qualify namespaceName name, [.symmetric], ⟨[], 0⟩⟩]
  indexByQualifiedName := [(SymbolTable.qualify namespaceName name, 0)]

/-- The table is reachable by one call. -/
theorem reachable_symmetricTable (namespaceName name : Text) :
    (symmetricTable namespaceName name).Reachable := by
  have registered :
      SymbolTable.getSymbol .empty namespaceName name [.symmetric] ⟨[], 0⟩ =
        .ok (⟨0⟩, symmetricTable namespaceName name) :=
    rfl
  exact .getSymbol .empty registered

/-- The namespace is used beside one with a symmetric name. -/
private theorem plain_testNamespace :
    ∀ entry ∈ (symmetricTable "other".toList "f".toList).entries, ∀ name,
      entry.qualifiedName = SymbolTable.qualify "test".toList name →
      entry.attributes = [] := by
  intro entry member name named
  rw [List.mem_singleton.mp member] at named
  have firstLetters := congrArg List.head? named
  exact absurd firstLetters (by simp [SymbolTable.qualify])

/-- A call is parsed up to its last token, and the unclosed call is a syntax error. -/
theorem parse_safe_call :
    (∃ tokens slot state,
      tokenize "f(-2)".toList = .ok tokens ∧
        @parse ⟨fun _ => 0⟩ ⟨"test".toList, ⟨[], 0⟩⟩ "f(-2)".toList .empty
            (symmetricTable "other".toList "f".toList) = .ok (slot, state) ∧
        state.pos = tokens.length) ∧
      ∃ message pos,
        @parse ⟨fun _ => 0⟩ ⟨"test".toList, ⟨[], 0⟩⟩ "f(-2".toList .empty
            (symmetricTable "other".toList "f".toList) = failAt message pos ∧
          pos ≤ "f(-2".toList.length := by
  have parsed :
      (@parse ⟨fun _ => 0⟩ ⟨"test".toList, ⟨[], 0⟩⟩ "f(-2)".toList .empty
        (symmetricTable "other".toList "f".toList)).isOk = true := by
    decide +kernel
  have refused :
      (@parse ⟨fun _ => 0⟩ ⟨"test".toList, ⟨[], 0⟩⟩ "f(-2".toList .empty
        (symmetricTable "other".toList "f".toList)).isOk = false := by
    decide +kernel
  have ends (text : Text) :=
    @parse_safe ⟨fun _ => 0⟩ _ (reachable_symmetricTable "other".toList "f".toList)
      ⟨"test".toList, ⟨[], 0⟩⟩ plain_testNamespace text .empty
  constructor
  · rcases ends "f(-2)".toList with returned | ⟨message, pos, thrown, _⟩
    · exact returned
    · rw [thrown] at parsed
      cases parsed
  · rcases ends "f(-2".toList with ⟨_, _, _, _, returned, _⟩ | thrown
    · rw [returned] at refused
      cases refused
    · exact thrown

end TokenVector

end AtomCore
