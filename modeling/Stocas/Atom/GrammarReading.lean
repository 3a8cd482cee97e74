import Stocas.Atom.Grammar
import Stocas.Atom.PrintedOperators
import Stocas.Library.Outcome

namespace AtomCore

open SymbolTable (Snapshot Symbol Text)
open NumericaCore (bigIntOfString)

/-!
# Accepted lexemes are derivable

Whatever a parsing function passes over is derivable at the level that it parses,
in the dialect with negative literals.  The proof looks at lexemes only: what the
parser builds from them is the subject of the next module.
-/

/-- Every lexeme is spelled as its kind asks for. -/
def AllSpelled (lexemes : List Lexeme) : Prop :=
  ∀ lexeme ∈ lexemes, Spelled lexeme.1 lexeme.2

/--
The lexemes up to a rest are derivable, and no name among them takes the rest's
parenthesis.
-/
def Reading (level : Level) (lexemes rest : List Lexeme) : Prop :=
  ∃ used expression,
    lexemes = used ++ rest ∧
      Reads .negativeLiterals level used expression ∧
      NoCall used (nextKind rest)

/-- What follows a reading is spelled right if all is. -/
theorem AllSpelled.rest
    {level : Level}
    {lexemes rest : List Lexeme}
    (spelled : AllSpelled lexemes)
    (reading : Reading level lexemes rest) :
    AllSpelled rest := by
  obtain ⟨used, expression, lexemes_eq, -, -⟩ := reading
  subst lexemes_eq
  intro lexeme member
  exact spelled lexeme (List.mem_append_right used member)

/-- What follows the first lexeme is spelled right if all is. -/
theorem AllSpelled.tail
    {lexemes : List Lexeme}
    (spelled : AllSpelled lexemes) :
    AllSpelled lexemes.tail :=
  fun lexeme member => spelled lexeme (List.mem_of_mem_tail member)

/-- The next lexeme, unless it is the end. -/
theorem exists_cons_of_nextKind
    {lexemes : List Lexeme}
    {kind : TokKind}
    (isKind : nextKind lexemes = kind)
    (notEnd : kind ≠ .finish)
    (spelled : AllSpelled lexemes) :
    ∃ text, lexemes = (kind, text) :: lexemes.tail ∧ Spelled kind text := by
  cases lexemes with
  | nil =>
      exact absurd isKind.symm notEnd
  | cons first rest =>
      obtain ⟨firstKind, text⟩ := first
      have same : firstKind = kind := isKind
      subst firstKind
      exact ⟨text, rfl, spelled _ List.mem_cons_self⟩

/-- The next lexeme, when it is punctuation. -/
theorem eq_cons_of_punctuation
    {lexemes : List Lexeme}
    {kind : TokKind}
    (isKind : nextKind lexemes = kind)
    (notEnd : kind ≠ .finish)
    (blank : ∀ text, Spelled kind text → text = [])
    (spelled : AllSpelled lexemes) :
    lexemes = (kind, []) :: lexemes.tail := by
  obtain ⟨text, lexemes_eq, isSpelled⟩ :=
    exists_cons_of_nextKind isKind notEnd spelled
  rwa [blank text isSpelled] at lexemes_eq

namespace Reading

variable {start middle rest : List Lexeme} {level leftLevel rightLevel : Level}

/-- A rule with one premise, for the same lexemes. -/
theorem weaken
    (reading : Reading leftLevel start rest)
    (rule :
      ∀ {lexemes : List Lexeme} {expression : Expression},
        Reads .negativeLiterals leftLevel lexemes expression →
        Reads .negativeLiterals level lexemes expression) :
    Reading level start rest := by
  obtain ⟨used, expression, lexemes_eq, reads, noCall⟩ := reading
  exact ⟨used, expression, lexemes_eq, rule reads, noCall⟩

/-- A rule that puts one more lexeme in front. -/
theorem cons
    {first : Lexeme}
    (reading : Reading leftLevel middle rest)
    (rule :
      ∀ {lexemes : List Lexeme} {expression : Expression},
        Reads .negativeLiterals leftLevel lexemes expression →
        middle = lexemes ++ rest →
        ∃ whole,
          Reads .negativeLiterals level (first :: lexemes) whole) :
    Reading level (first :: middle) rest := by
  obtain ⟨used, expression, lexemes_eq, reads, noCall⟩ := reading
  obtain ⟨whole, wholeReads⟩ := rule reads lexemes_eq
  refine ⟨first :: used, whole, by rw [lexemes_eq, List.cons_append],
    wholeReads, ?_⟩
  intro ends
  exact noCall (@EndsInName.of_append [first] _ reads.nonempty ends)

/-- A rule with an operator between its operands. -/
theorem join
    {operator : TokKind}
    {combine : Expression → Expression → Expression}
    (left : Reading leftLevel start ((operator, []) :: middle))
    (right : Reading rightLevel middle rest)
    (rule :
      ∀ {leftLexemes rightLexemes : List Lexeme} {left right : Expression},
        Reads .negativeLiterals leftLevel leftLexemes left →
        Reads .negativeLiterals rightLevel rightLexemes right →
        Reads .negativeLiterals level
          (leftLexemes ++ (operator, []) :: rightLexemes)
          (combine left right)) :
    Reading level start rest := by
  obtain ⟨leftUsed, leftExpression, start_eq, leftReads, -⟩ := left
  obtain ⟨rightUsed, rightExpression, middle_eq, rightReads, noCall⟩ := right
  refine ⟨leftUsed ++ (operator, []) :: rightUsed, _, ?_,
    rule leftReads rightReads, ?_⟩
  · rw [start_eq, middle_eq, List.append_assoc, List.cons_append]
  · intro ends
    rw [List.append_cons] at ends
    exact noCall (EndsInName.of_append rightReads.nonempty ends)

/-- Implicit multiplication. -/
theorem adjacent
    (left : Reading .product start middle)
    (right : Reading .power middle rest) :
    Reading .product start rest := by
  obtain ⟨leftUsed, leftExpression, start_eq, leftReads, leftNoCall⟩ := left
  obtain ⟨rightUsed, rightExpression, middle_eq, rightReads, noCall⟩ := right
  have sameNext : nextKind middle = nextKind rightUsed := by
    rw [middle_eq, nextKind_append rightReads.nonempty]
  rw [sameNext] at leftNoCall
  refine ⟨leftUsed ++ rightUsed, _, ?_,
    .adjacent leftReads rightReads leftNoCall, ?_⟩
  · rw [start_eq, middle_eq, List.append_assoc]
  · intro ends
    exact noCall (EndsInName.of_append rightReads.nonempty ends)

/-- A minus and a numeral without a caret. -/
theorem literal
    {text : Text}
    (numeral : IsNumeral text)
    (rest : List Lexeme) :
    Reading .unary ((.minus, []) :: (.number, text) :: rest) rest := by
  refine ⟨[(.minus, []), (.number, text)], _, rfl,
    .minus (.unsigned (.base (.number numeral))) fun _ => id, ?_⟩
  exact noCall_of_getLast rfl TokKind.noConfusion _

/-- A minus and a numeral that is raised to a power. -/
theorem raisedLiteral
    {text : Text}
    (numeral : IsNumeral text)
    {middle rest : List Lexeme}
    (exponent : Reading .unary middle rest) :
    Reading .unary
      ((.minus, []) :: (.number, text) :: (.caret, []) :: middle) rest := by
  obtain ⟨used, expression, middle_eq, reads, noCall⟩ := exponent
  subst middle_eq
  refine ⟨[(.minus, []), (.number, text), (.caret, [])] ++ used, _, rfl,
    .raisedLiteral rfl numeral reads, ?_⟩
  intro ends
  exact noCall (EndsInName.of_append reads.nonempty ends)

/-- A minus before what is no numeral. -/
theorem negation
    {middle rest : List Lexeme}
    (noNumeral : nextKind middle ≠ .number)
    (operand : Reading .unary middle rest) :
    Reading .unary ((.minus, []) :: middle) rest := by
  refine operand.cons fun {used _} reads middle_eq => ?_
  refine ⟨_, .minus reads fun _ raises => noNumeral ?_⟩
  rw [middle_eq, nextKind_append reads.nonempty]
  cases used with
  | nil =>
      exact raises.elim
  | cons first others =>
      unfold RaisesNumeral at raises
      split at raises
      · rename_i shape
        cases shape
        rfl
      · exact raises.elim

/-- The arguments of a call, between its parentheses. -/
theorem call
    {name : Text}
    {middle rest : List Lexeme}
    {arguments : List (List Lexeme × Expression)}
    (all :
      ∀ argument ∈ arguments,
        Reads .negativeLiterals .sum argument.1 argument.2)
    (middle_eq :
      middle =
        joinLexemes .comma (arguments.map Prod.fst) ++ (.rParen, []) :: rest) :
    Reading .primary ((.ident, name) :: (.lParen, []) :: middle) rest := by
  refine ⟨_, _, ?_, .call all, noCall_parenthesized [(.ident, name)] _ _⟩
  rw [middle_eq]
  simp [AtomCore.parenthesized]

/-- An expression between parentheses. -/
theorem parenthesized
    (inner : Reading .sum middle ((.rParen, []) :: rest)) :
    Reading .primary ((.lParen, []) :: middle) rest := by
  obtain ⟨used, expression, middle_eq, reads, -⟩ := inner
  refine ⟨_, _, ?_, .parenthesized reads, noCall_parenthesized [] _ _⟩
  rw [middle_eq]
  simp [AtomCore.parenthesized]

end Reading

/-- The kinds with which the loop continues a product. -/
def Multiplies (kind : TokKind) : Prop :=
  (kind = .star ∨ kind = .slash) ∨ startsPrimary kind = true

/-- The lexemes depend on the tokens only. -/
@[simp] theorem lexemes_withTable
    (state : ParserState)
    (store : AtomStore)
    (table : Snapshot) :
    ParserState.lexemes ⟨state.tokens, store, table⟩ = state.lexemes :=
  rfl

section Parser

variable [StringHash] {context : ParserContext}

@[simp] theorem lexemes_numeral
    (state : ParserState)
    (text : Text) :
    (numeral state text).2.lexemes = state.lexemes :=
  rfl

omit [StringHash] in
/-- An expected punctuation is passed. -/
theorem lexemes_of_expect
    {state later : ParserState}
    {kind : TokKind}
    {message : Text}
    (expected : state.expect kind message = .ok later)
    (spelled : AllSpelled state.lexemes)
    (notEnd : kind ≠ .finish)
    (blank : ∀ text, Spelled kind text → text = []) :
    state.lexemes = (kind, []) :: later.lexemes := by
  rw [ParserState.expect, ParserState.kind_peek] at expected
  split_ifs at expected with isKind
  · cases expected
    rw [ParserState.lexemes_advance]
    exact eq_cons_of_punctuation isKind notEnd blank spelled
  · cases expected

/-- `store_.add(terms)` on the operands of a minus. -/
def subtractOperands (lhs : Nat) (rhs : Nat × ParserState) : Nat × ParserState :=
  addOperands lhs (negate rhs.2 rhs.1)

/-- A right operand that the loop parses, with the builder call for it. -/
inductive Round
    (context : ParserContext)
    (fuel minPrec : Nat)
    (state : ParserState)
    (rhs : Nat × ParserState) :
    (Nat → Nat × ParserState → Nat × ParserState) → Prop where
  | add :
      nextKind state.lexemes = .plus →
      minPrec ≤ 1 →
      parseExpression context fuel 2 state.advance = .ok rhs →
      Round context fuel minPrec state rhs addOperands
  | subtract :
      nextKind state.lexemes = .minus →
      minPrec ≤ 1 →
      parseExpression context fuel 2 state.advance = .ok rhs →
      Round context fuel minPrec state rhs subtractOperands
  | times :
      nextKind state.lexemes = .star →
      minPrec ≤ 2 →
      parseExpression context fuel 3 state.advance = .ok rhs →
      Round context fuel minPrec state rhs mulOperands
  | divide :
      nextKind state.lexemes = .slash →
      minPrec ≤ 2 →
      parseExpression context fuel 3 state.advance = .ok rhs →
      Round context fuel minPrec state rhs divideOperands
  | adjacent :
      startsPrimary (nextKind state.lexemes) = true →
      minPrec ≤ 2 →
      parseExpression context fuel 3 state = .ok rhs →
      Round context fuel minPrec state rhs mulOperands

/-- How an operator combines, and the level at which its right operand is parsed. -/
def operatorRound :
    TokKind → Option ((Nat → Nat × ParserState → Nat × ParserState) × Nat)
  | .plus => some (addOperands, 2)
  | .minus => some (subtractOperands, 2)
  | .star => some (mulOperands, 3)
  | .slash => some (divideOperands, 3)
  | _ => none

/-- What starts an operand is no operator. -/
theorem operatorRound_of_startsPrimary
    {kind : TokKind}
    (starts : startsPrimary kind = true) :
    operatorRound kind = none := by
  cases kind with
  | plus | minus | star | slash =>
      cases starts
  | _ =>
      rfl

/-- The kinds at which the loop ends. -/
structure Stops (minPrec : Nat) (kind : TokKind) : Prop where
  noProduct : minPrec ≤ 2 → ¬Multiplies kind
  noSum : minPrec ≤ 1 → kind ≠ .plus ∧ kind ≠ .minus

namespace Round

variable {fuel minPrec : Nat} {state : ParserState} {rhs : Nat × ParserState}
  {combine : Nat → Nat × ParserState → Nat × ParserState}

/-- Builder calls pass no tokens. -/
theorem lexemes_eq
    (round : Round context fuel minPrec state rhs combine)
    (lhs : Nat) :
    (combine lhs rhs).2.lexemes = rhs.2.lexemes := by
  cases round <;> rfl

/-- From precedence 2 on only products are continued. -/
theorem multiplies
    (round : Round context fuel minPrec state rhs combine)
    (high : 2 ≤ minPrec) :
    Multiplies (nextKind state.lexemes) := by
  cases round with
  | add _ low | subtract _ low =>
      exact absurd (high.trans low) (by decide)
  | times isStar =>
      exact Or.inl (Or.inl isStar)
  | divide isSlash =>
      exact Or.inl (Or.inr isSlash)
  | adjacent starts =>
      exact Or.inr starts

/-- At an operator the loop parses an operand after it. -/
theorem of_operator
    {kind : TokKind}
    {operation : Nat → Nat × ParserState → Nat × ParserState}
    {level : Nat}
    (isOperator : operatorRound kind = some (operation, level))
    (isKind : nextKind state.lexemes = kind)
    (round : Round context fuel minPrec state rhs combine) :
    combine = operation ∧
      parseExpression context fuel level state.advance = .ok rhs := by
  subst isKind
  cases round with
  | add isKind _ parsed | subtract isKind _ parsed | times isKind _ parsed
  | divide isKind _ parsed =>
      rw [isKind] at isOperator
      cases isOperator
      exact ⟨rfl, parsed⟩
  | adjacent starts =>
      rw [operatorRound_of_startsPrimary starts] at isOperator
      cases isOperator

/-- Only operands of a precedence up to 2 are combined. -/
theorem minPrec_le
    (round : Round context fuel minPrec state rhs combine) :
    minPrec ≤ 2 := by
  cases round with
  | add _ low | subtract _ low =>
      exact low.trans (by decide)
  | times _ low | divide _ low | adjacent _ low =>
      exact low

end Round

/-- Everything the loop can do: one more round, or stop. -/
theorem parseOperators_cases
    {fuel minPrec lhs : Nat}
    {state : ParserState}
    {result : Nat × ParserState}
    (parsed :
      parseOperators context (fuel + 1) minPrec lhs state = .ok result) :
    (∃ rhs combine,
      Round context fuel minPrec state rhs combine ∧
        parseOperators context fuel minPrec (combine lhs rhs).1
          (combine lhs rhs).2 = .ok result) ∨
      result = (lhs, state) ∧ Stops minPrec (nextKind state.lexemes) := by
  simp only [parseOperators, ParserState.kind_peek] at parsed
  split_ifs at parsed with additive isMinus multiplicative isSlash implicit
  · obtain ⟨rhs, rhsParsed, loop⟩ := Outcome.bind_eq_ok.mp parsed
    exact Or.inl ⟨rhs, _, .subtract isMinus additive.2 rhsParsed, loop⟩
  · obtain ⟨rhs, rhsParsed, loop⟩ := Outcome.bind_eq_ok.mp parsed
    have isPlus := additive.1.resolve_right isMinus
    exact Or.inl ⟨rhs, _, .add isPlus additive.2 rhsParsed, loop⟩
  · obtain ⟨rhs, rhsParsed, loop⟩ := Outcome.bind_eq_ok.mp parsed
    exact Or.inl ⟨rhs, _, .divide isSlash multiplicative.2 rhsParsed, loop⟩
  · obtain ⟨rhs, rhsParsed, loop⟩ := Outcome.bind_eq_ok.mp parsed
    have isStar := multiplicative.1.resolve_right isSlash
    exact Or.inl ⟨rhs, _, .times isStar multiplicative.2 rhsParsed, loop⟩
  · obtain ⟨rhs, rhsParsed, loop⟩ := Outcome.bind_eq_ok.mp parsed
    exact Or.inl ⟨rhs, _, .adjacent implicit.1 implicit.2 rhsParsed, loop⟩
  · cases parsed
    refine Or.inr ⟨rfl, ⟨?_, ?_⟩⟩
    · rintro low (operator | starts)
      · exact multiplicative ⟨operator, low⟩
      · exact implicit ⟨starts, low⟩
    · intro low
      exact ⟨fun isPlus => additive ⟨Or.inl isPlus, low⟩,
        fun isMinus => additive ⟨Or.inr isMinus, low⟩⟩

/-- After an operand of a product the loop ends at once. -/
theorem parseOperators_three
    {fuel lhs : Nat}
    {state : ParserState}
    {result : Nat × ParserState}
    (parsed : parseOperators context fuel 3 lhs state = .ok result) :
    result = (lhs, state) := by
  cases fuel with
  | zero =>
      cases parsed
  | succ fuel =>
      rcases parseOperators_cases parsed with ⟨_, _, round, _⟩ | ⟨result_eq, _⟩
      · exact absurd round.minPrec_le (by decide)
      · exact result_eq

/-- What all parsing functions pass over with so much fuel. -/
structure ParserReads (context : ParserContext) (fuel : Nat) : Prop where
  operand
    {state : ParserState}
    {result : Nat × ParserState} :
    AllSpelled state.lexemes →
    parseExpression context fuel 3 state = .ok result →
    Reading .unary state.lexemes result.2.lexemes ∧
      (startsPrimary (nextKind state.lexemes) = true →
        Reading .power state.lexemes result.2.lexemes)
  term
    {state : ParserState}
    {result : Nat × ParserState} :
    AllSpelled state.lexemes →
    parseExpression context fuel 2 state = .ok result →
    Reading .product state.lexemes result.2.lexemes ∧
      ¬Multiplies (nextKind result.2.lexemes)
  whole
    {state : ParserState}
    {result : Nat × ParserState} :
    AllSpelled state.lexemes →
    parseExpression context fuel 1 state = .ok result →
    Reading .sum state.lexemes result.2.lexemes
  factors
    {lhs : Nat}
    {start : List Lexeme}
    {state : ParserState}
    {result : Nat × ParserState} :
    AllSpelled state.lexemes →
    Reading .product start state.lexemes →
    parseOperators context fuel 2 lhs state = .ok result →
    Reading .product start result.2.lexemes ∧
      ¬Multiplies (nextKind result.2.lexemes)
  terms
    {lhs : Nat}
    {start : List Lexeme}
    {state : ParserState}
    {result : Nat × ParserState} :
    AllSpelled state.lexemes →
    Reading .product start state.lexemes ∨
      Reading .sum start state.lexemes ∧
        ¬Multiplies (nextKind state.lexemes) →
    parseOperators context fuel 1 lhs state = .ok result →
    Reading .sum start result.2.lexemes
  unary
    {state : ParserState}
    {result : Nat × ParserState} :
    AllSpelled state.lexemes →
    parseUnary context fuel state = .ok result →
    Reading .unary state.lexemes result.2.lexemes ∧
      (startsPrimary (nextKind state.lexemes) = true →
        Reading .power state.lexemes result.2.lexemes)
  pow
    {state : ParserState}
    {result : Nat × ParserState} :
    AllSpelled state.lexemes →
    parsePow context fuel state = .ok result →
    Reading .power state.lexemes result.2.lexemes
  primary
    {state : ParserState}
    {result : Nat × ParserState} :
    AllSpelled state.lexemes →
    parsePrimary context fuel state = .ok result →
    Reading .primary state.lexemes result.2.lexemes
  arguments
    {state : ParserState}
    {result : List Nat × ParserState} :
    AllSpelled state.lexemes →
    parseArguments context fuel state = .ok result →
    ∃ arguments : List (List Lexeme × Expression),
      (∀ argument ∈ arguments,
        Reads .negativeLiterals .sum argument.1 argument.2) ∧
      state.lexemes =
        joinLexemes .comma (arguments.map Prod.fst) ++ result.2.lexemes
  moreArguments
    {state : ParserState}
    {result : List Nat × ParserState} :
    AllSpelled state.lexemes →
    parseMoreArguments context fuel state = .ok result →
    ∃ arguments : List (List Lexeme × Expression),
      (∀ argument ∈ arguments,
        Reads .negativeLiterals .sum argument.1 argument.2) ∧
      state.lexemes =
        (arguments.map Prod.fst).flatMap (fun lexemes => (.comma, []) :: lexemes) ++
          result.2.lexemes

namespace ParserReads

variable {fuel : Nat} {state : ParserState} {result : Nat × ParserState}

/-- `parse_expression(3)`. -/
theorem operand_step
    (reads : ParserReads context fuel)
    (spelled : AllSpelled state.lexemes)
    (parsed : parseExpression context (fuel + 1) 3 state = .ok result) :
    Reading .unary state.lexemes result.2.lexemes ∧
      (startsPrimary (nextKind state.lexemes) = true →
        Reading .power state.lexemes result.2.lexemes) := by
  simp only [parseExpression] at parsed
  obtain ⟨lhs, lhsParsed, loop⟩ := Outcome.bind_eq_ok.mp parsed
  have result_eq := parseOperators_three loop
  subst result_eq
  exact reads.unary spelled lhsParsed

/-- `parse_expression(2)`. -/
theorem term_step
    (reads : ParserReads context fuel)
    (spelled : AllSpelled state.lexemes)
    (parsed : parseExpression context (fuel + 1) 2 state = .ok result) :
    Reading .product state.lexemes result.2.lexemes ∧
      ¬Multiplies (nextKind result.2.lexemes) := by
  simp only [parseExpression] at parsed
  obtain ⟨lhs, lhsParsed, loop⟩ := Outcome.bind_eq_ok.mp parsed
  have first := (reads.unary spelled lhsParsed).1
  exact reads.factors (spelled.rest first) (first.weaken .factor) loop

/-- `parse_expression(1)`. -/
theorem whole_step
    (reads : ParserReads context fuel)
    (spelled : AllSpelled state.lexemes)
    (parsed : parseExpression context (fuel + 1) 1 state = .ok result) :
    Reading .sum state.lexemes result.2.lexemes := by
  simp only [parseExpression] at parsed
  obtain ⟨lhs, lhsParsed, loop⟩ := Outcome.bind_eq_ok.mp parsed
  have first := (reads.unary spelled lhsParsed).1
  exact reads.terms (spelled.rest first) (Or.inl (first.weaken .factor)) loop

variable {minPrec : Nat} {rhs : Nat × ParserState} {start : List Lexeme}
  {combine : Nat → Nat × ParserState → Nat × ParserState}

/-- A round that multiplies makes a product longer. -/
theorem product_round
    (reads : ParserReads context fuel)
    (spelled : AllSpelled state.lexemes)
    (round : Round context fuel minPrec state rhs combine)
    (multiplies : Multiplies (nextKind state.lexemes))
    (before : Reading .product start state.lexemes) :
    AllSpelled rhs.2.lexemes ∧ Reading .product start rhs.2.lexemes := by
  have operator
      {kind : TokKind}
      {operation : Expression → Expression → Expression}
      (isKind : nextKind state.lexemes = kind)
      (punctuation : kind ≠ .finish ∧ ∀ text, Spelled kind text → text = [])
      (rule :
        ∀ {left right : List Lexeme} {first second : Expression},
          Reads .negativeLiterals .product left first →
          Reads .negativeLiterals .unary right second →
          Reads .negativeLiterals .product (left ++ (kind, []) :: right)
            (operation first second))
      (parsed : parseExpression context fuel 3 state.advance = .ok rhs) :
      AllSpelled rhs.2.lexemes ∧ Reading .product start rhs.2.lexemes := by
    have operand := (reads.operand (by simpa using spelled.tail) parsed).1
    rw [ParserState.lexemes_advance] at operand
    refine ⟨spelled.tail.rest operand, ?_⟩
    rw [eq_cons_of_punctuation isKind punctuation.1 punctuation.2 spelled]
      at before
    exact before.join operand rule
  cases round with
  | add isPlus =>
      simp [isPlus, Multiplies, startsPrimary] at multiplies
  | subtract isMinus =>
      simp [isMinus, Multiplies, startsPrimary] at multiplies
  | times isStar _ parsed =>
      exact operator isStar ⟨TokKind.noConfusion, fun _ => id⟩ .times parsed
  | divide isSlash _ parsed =>
      exact operator isSlash ⟨TokKind.noConfusion, fun _ => id⟩ .divide parsed
  | adjacent starts _ parsed =>
      have operand := (reads.operand spelled parsed).2 starts
      exact ⟨spelled.rest operand, before.adjacent operand⟩

/-- A round that does not multiply makes a sum longer. -/
theorem sum_round
    (reads : ParserReads context fuel)
    (spelled : AllSpelled state.lexemes)
    (round : Round context fuel minPrec state rhs combine)
    (noProduct : ¬Multiplies (nextKind state.lexemes))
    (before : Reading .sum start state.lexemes) :
    AllSpelled rhs.2.lexemes ∧ Reading .sum start rhs.2.lexemes ∧
      ¬Multiplies (nextKind rhs.2.lexemes) := by
  have operator
      {kind : TokKind}
      {operation : Expression → Expression → Expression}
      (isKind : nextKind state.lexemes = kind)
      (punctuation : kind ≠ .finish ∧ ∀ text, Spelled kind text → text = [])
      (rule :
        ∀ {left right : List Lexeme} {first second : Expression},
          Reads .negativeLiterals .sum left first →
          Reads .negativeLiterals .product right second →
          Reads .negativeLiterals .sum (left ++ (kind, []) :: right)
            (operation first second))
      (parsed : parseExpression context fuel 2 state.advance = .ok rhs) :
      AllSpelled rhs.2.lexemes ∧ Reading .sum start rhs.2.lexemes ∧
        ¬Multiplies (nextKind rhs.2.lexemes) := by
    obtain ⟨operand, stops⟩ := reads.term (by simpa using spelled.tail) parsed
    rw [ParserState.lexemes_advance] at operand
    refine ⟨spelled.tail.rest operand, ?_, stops⟩
    rw [eq_cons_of_punctuation isKind punctuation.1 punctuation.2 spelled]
      at before
    exact before.join operand rule
  cases round with
  | add isPlus _ parsed =>
      exact operator isPlus ⟨TokKind.noConfusion, fun _ => id⟩ .add parsed
  | subtract isMinus _ parsed =>
      exact operator isMinus ⟨TokKind.noConfusion, fun _ => id⟩ .subtract parsed
  | times isStar =>
      exact absurd (Or.inl (Or.inl isStar)) noProduct
  | divide isSlash =>
      exact absurd (Or.inl (Or.inr isSlash)) noProduct
  | adjacent starts =>
      exact absurd (Or.inr starts) noProduct

/-- The loop of `parse_expression(2)`. -/
theorem factors_step
    (reads : ParserReads context fuel)
    {lhs : Nat}
    (spelled : AllSpelled state.lexemes)
    (before : Reading .product start state.lexemes)
    (parsed : parseOperators context (fuel + 1) 2 lhs state = .ok result) :
    Reading .product start result.2.lexemes ∧
      ¬Multiplies (nextKind result.2.lexemes) := by
  rcases parseOperators_cases parsed with
    ⟨rhs, combine, round, loop⟩ | ⟨result_eq, stops⟩
  · have joined :=
      reads.product_round spelled round (round.multiplies le_rfl) before
    rw [← round.lexemes_eq lhs] at joined
    exact reads.factors joined.1 joined.2 loop
  · subst result_eq
    exact ⟨before, stops.1 le_rfl⟩

/-- The loop of `parse_expression(1)`. -/
theorem terms_step
    (reads : ParserReads context fuel)
    {lhs : Nat}
    (spelled : AllSpelled state.lexemes)
    (before :
      Reading .product start state.lexemes ∨
        Reading .sum start state.lexemes ∧
          ¬Multiplies (nextKind state.lexemes))
    (parsed : parseOperators context (fuel + 1) 1 lhs state = .ok result) :
    Reading .sum start result.2.lexemes := by
  have sum : Reading .sum start state.lexemes :=
    before.elim (fun product => product.weaken .term) And.left
  rcases parseOperators_cases parsed with
    ⟨rhs, combine, round, loop⟩ | ⟨result_eq, -⟩
  · by_cases multiplies : Multiplies (nextKind state.lexemes)
    · have product : Reading .product start state.lexemes :=
        before.elim id fun other => absurd multiplies other.2
      have joined := reads.product_round spelled round multiplies product
      rw [← round.lexemes_eq lhs] at joined
      exact reads.terms joined.1 (Or.inl joined.2) loop
    · have joined := reads.sum_round spelled round multiplies sum
      rw [← round.lexemes_eq lhs] at joined
      exact reads.terms joined.1 (Or.inr joined.2) loop
  · subst result_eq
    exact sum

/-- The base of a power and its exponent. -/
theorem raised
    (reads : ParserReads context fuel)
    {base exponent : Nat × ParserState}
    (spelled : AllSpelled base.2.lexemes)
    (before : Reading .primary start base.2.lexemes)
    (caret : base.2.peek.kind = .caret)
    (parsed : parseUnary context fuel base.2.advance = .ok exponent) :
    Reading .power start exponent.2.lexemes := by
  have right := (reads.unary (by simpa using spelled.tail) parsed).1
  rw [ParserState.lexemes_advance] at right
  rw [ParserState.kind_peek] at caret
  rw [eq_cons_of_punctuation caret TokKind.noConfusion (fun _ => id) spelled]
    at before
  exact before.join right .caret

/-- `parse_pow`. -/
theorem pow_step
    (reads : ParserReads context fuel)
    (spelled : AllSpelled state.lexemes)
    (parsed : parsePow context (fuel + 1) state = .ok result) :
    Reading .power state.lexemes result.2.lexemes := by
  simp only [parsePow] at parsed
  obtain ⟨base, baseParsed, rest⟩ := Outcome.bind_eq_ok.mp parsed
  have first := reads.primary spelled baseParsed
  split_ifs at rest with caret
  · obtain ⟨exponent, exponentParsed, built⟩ := Outcome.bind_eq_ok.mp rest
    cases built
    have whole := reads.raised (spelled.rest first) first caret exponentParsed
    exact whole
  · cases rest
    exact first.weaken .base

/-- `parse_unary`. -/
theorem unary_step
    (reads : ParserReads context fuel)
    (spelled : AllSpelled state.lexemes)
    (parsed : parseUnary context (fuel + 1) state = .ok result) :
    Reading .unary state.lexemes result.2.lexemes ∧
      (startsPrimary (nextKind state.lexemes) = true →
        Reading .power state.lexemes result.2.lexemes) := by
  have tailSpelled : AllSpelled state.lexemes.tail := spelled.tail
  simp only [parseUnary, ParserState.lookahead_eq, ParserState.kind_peek,
    ParserState.lexemes_advance] at parsed
  by_cases minus : nextKind state.lexemes = .minus
  · rw [if_pos minus] at parsed
    refine ⟨?_, fun starts => by rw [minus] at starts; cases starts⟩
    rw [eq_cons_of_punctuation minus TokKind.noConfusion (fun _ => id) spelled]
    by_cases number : nextKind state.lexemes.tail = .number
    · obtain ⟨text, tail_eq, numeral⟩ :=
        exists_cons_of_nextKind number TokKind.noConfusion tailSpelled
      rw [if_pos number] at parsed
      rw [tail_eq]
      split_ifs at parsed with empty caret
      · cases parsed
      · obtain ⟨exponent, exponentParsed, built⟩ := Outcome.bind_eq_ok.mp parsed
        cases built
        have caret : nextKind state.lexemes.tail.tail = .caret := by
          simpa using caret
        have right :=
          (reads.unary (by simpa using tailSpelled.tail.tail)
            exponentParsed).1
        rw [eq_cons_of_punctuation caret TokKind.noConfusion (fun _ => id)
          tailSpelled.tail]
        refine .raisedLiteral numeral ?_
        simpa using right
      · cases parsed
        simpa using Reading.literal numeral state.lexemes.tail.tail
    · rw [if_neg number] at parsed
      obtain ⟨value, valueParsed, built⟩ := Outcome.bind_eq_ok.mp parsed
      cases built
      have operand := (reads.unary (by simpa using tailSpelled) valueParsed).1
      rw [ParserState.lexemes_advance] at operand
      exact operand.negation number
  · rw [if_neg minus] at parsed
    split_ifs at parsed with plus
    · refine ⟨?_, fun starts => by rw [plus] at starts; cases starts⟩
      have operand := (reads.unary (by simpa using tailSpelled) parsed).1
      rw [ParserState.lexemes_advance] at operand
      rw [eq_cons_of_punctuation plus TokKind.noConfusion (fun _ => id) spelled]
      exact operand.cons fun reads _ => ⟨_, .plus reads⟩
    · have power := reads.pow spelled parsed
      exact ⟨power.weaken .unsigned, fun _ => power⟩

/-- `parse_primary`. -/
theorem primary_step
    (reads : ParserReads context fuel)
    (spelled : AllSpelled state.lexemes)
    (parsed : parsePrimary context (fuel + 1) state = .ok result) :
    Reading .primary state.lexemes result.2.lexemes := by
  have tailSpelled : AllSpelled state.lexemes.tail := spelled.tail
  simp only [parsePrimary] at parsed
  split at parsed
  · rename_i isNumber
    rw [ParserState.kind_peek] at isNumber
    obtain ⟨text, lexemes_eq, numeral⟩ :=
      exists_cons_of_nextKind isNumber TokKind.noConfusion spelled
    rw [lexemes_eq]
    split_ifs at parsed
    · cases parsed
    · cases parsed
      refine ⟨[(.number, text)], _, by simp, .number numeral, ?_⟩
      exact noCall_of_getLast rfl TokKind.noConfusion _
  · rename_i isIdent
    rw [ParserState.kind_peek] at isIdent
    obtain ⟨name, lexemes_eq, -⟩ :=
      exists_cons_of_nextKind isIdent TokKind.noConfusion spelled
    rw [lexemes_eq]
    split at parsed
    · cases parsed
    · rename_i symbol table resolved
      split_ifs at parsed with isCall
      · obtain ⟨arguments, argumentsParsed, closed⟩ :=
          Outcome.bind_eq_ok.mp parsed
        obtain ⟨passed, expected, built⟩ := Outcome.bind_eq_ok.mp closed
        cases built
        have isCall : nextKind state.lexemes.tail = .lParen := by
          simpa using isCall
        obtain ⟨all, allRead, all_eq⟩ :=
          reads.arguments (by simpa using tailSpelled.tail) argumentsParsed
        have all_eq :
            state.lexemes.tail.tail =
              joinLexemes .comma (all.map Prod.fst) ++ arguments.2.lexemes := by
          simpa using all_eq
        have restSpelled : AllSpelled arguments.2.lexemes := by
          intro lexeme member
          refine tailSpelled.tail lexeme ?_
          rw [all_eq]
          exact List.mem_append_right _ member
        rw [lexemes_of_expect expected restSpelled TokKind.noConfusion
          fun _ => id] at all_eq
        rw [eq_cons_of_punctuation isCall TokKind.noConfusion (fun _ => id)
          tailSpelled]
        exact .call allRead all_eq
      · cases parsed
        refine ⟨[(.ident, name)], _, by simp, .var, fun _ => ?_⟩
        simpa using isCall
  · rename_i isParen
    rw [ParserState.kind_peek] at isParen
    obtain ⟨inner, innerParsed, closed⟩ := Outcome.bind_eq_ok.mp parsed
    obtain ⟨passed, expected, built⟩ := Outcome.bind_eq_ok.mp closed
    cases built
    have advanced : AllSpelled state.advance.lexemes := by
      simpa using tailSpelled
    have reading := reads.whole advanced innerParsed
    rw [lexemes_of_expect expected (advanced.rest reading) TokKind.noConfusion
      fun _ => id, ParserState.lexemes_advance] at reading
    rw [eq_cons_of_punctuation isParen TokKind.noConfusion (fun _ => id) spelled]
    exact reading.parenthesized
  · cases parsed

/-- The arguments of a call. -/
theorem arguments_step
    (reads : ParserReads context fuel)
    {result : List Nat × ParserState}
    (spelled : AllSpelled state.lexemes)
    (parsed : parseArguments context (fuel + 1) state = .ok result) :
    ∃ arguments : List (List Lexeme × Expression),
      (∀ argument ∈ arguments,
        Reads .negativeLiterals .sum argument.1 argument.2) ∧
      state.lexemes =
        joinLexemes .comma (arguments.map Prod.fst) ++ result.2.lexemes := by
  simp only [parseArguments] at parsed
  split_ifs at parsed
  · cases parsed
    exact ⟨[], List.forall_mem_nil _, rfl⟩
  · obtain ⟨first, firstParsed, rest⟩ := Outcome.bind_eq_ok.mp parsed
    obtain ⟨others, othersParsed, collected⟩ := Outcome.bind_eq_ok.mp rest
    cases collected
    have reading := reads.whole spelled firstParsed
    obtain ⟨arguments, all, others_eq⟩ :=
      reads.moreArguments (spelled.rest reading) othersParsed
    obtain ⟨used, expression, state_eq, firstReads, -⟩ := reading
    refine ⟨(used, expression) :: arguments, ?_, ?_⟩
    · simpa using And.intro firstReads all
    · rw [state_eq, others_eq]
      simp [joinLexemes]

/-- The arguments after a comma. -/
theorem moreArguments_step
    (reads : ParserReads context fuel)
    {result : List Nat × ParserState}
    (spelled : AllSpelled state.lexemes)
    (parsed : parseMoreArguments context (fuel + 1) state = .ok result) :
    ∃ arguments : List (List Lexeme × Expression),
      (∀ argument ∈ arguments,
        Reads .negativeLiterals .sum argument.1 argument.2) ∧
      state.lexemes =
        (arguments.map Prod.fst).flatMap (fun lexemes => (.comma, []) :: lexemes) ++
          result.2.lexemes := by
  simp only [parseMoreArguments, ParserState.kind_peek] at parsed
  split_ifs at parsed with comma
  · obtain ⟨next, nextParsed, rest⟩ := Outcome.bind_eq_ok.mp parsed
    obtain ⟨others, othersParsed, collected⟩ := Outcome.bind_eq_ok.mp rest
    cases collected
    have advanced : AllSpelled state.advance.lexemes := by
      simpa using spelled.tail
    have reading := reads.whole advanced nextParsed
    obtain ⟨arguments, all, others_eq⟩ :=
      reads.moreArguments (advanced.rest reading) othersParsed
    obtain ⟨used, expression, state_eq, nextReads, -⟩ := reading
    refine ⟨(used, expression) :: arguments, ?_, ?_⟩
    · simpa using And.intro nextReads all
    · rw [eq_cons_of_punctuation comma TokKind.noConfusion (fun _ => id) spelled,
        ← ParserState.lexemes_advance, state_eq, others_eq]
      simp
  · cases parsed
    exact ⟨[], List.forall_mem_nil _, rfl⟩

end ParserReads

/-- With any fuel the parsing functions pass derivable lexemes. -/
theorem parserReads
    (context : ParserContext)
    (fuel : Nat) :
    ParserReads context fuel := by
  induction fuel with
  | zero =>
      exact ⟨nofun, nofun, nofun, nofun, nofun, nofun, nofun, nofun, nofun, nofun⟩
  | succ fuel inductionHypothesis =>
      exact {
        operand := inductionHypothesis.operand_step
        term := inductionHypothesis.term_step
        whole := inductionHypothesis.whole_step
        factors := inductionHypothesis.factors_step
        terms := inductionHypothesis.terms_step
        unary := inductionHypothesis.unary_step
        pow := inductionHypothesis.pow_step
        primary := inductionHypothesis.primary_step
        arguments := inductionHypothesis.arguments_step
        moreArguments := inductionHypothesis.moreArguments_step }

/-- The computation does not run out of fuel. -/
def KeepsFuel {α : Type} (outcome : Except ParseError α) : Prop :=
  Outcome.OnlyThrows (fun error => error ≠ .outOfFuel) outcome

omit [StringHash] in
/-- The parser's own errors are not those of fuel. -/
theorem keepsFuel_fail
    {α : Type}
    (message : Text)
    (pos : Nat) :
    KeepsFuel (fail message pos : Except ParseError α) := by
  intro error throws
  cases throws
  exact ParseError.noConfusion

omit [StringHash] in
/-- An unexpected token is no lack of fuel. -/
theorem keepsFuel_expect
    (state : ParserState)
    (kind : TokKind)
    (message : Text) :
    KeepsFuel (state.expect kind message) := by
  rw [ParserState.expect]
  split_ifs
  · exact Outcome.onlyThrows_ok
  · exact keepsFuel_fail _ _

/-- What all parsing functions can do with so much fuel. -/
structure ParserEnough (context : ParserContext) (fuel : Nat) : Prop where
  expression
    {minPrec : Nat}
    {state : ParserState} :
    AllSpelled state.lexemes →
    5 * state.lexemes.length + 4 ≤ fuel →
    KeepsFuel (parseExpression context fuel minPrec state)
  operators
    {minPrec lhs : Nat}
    {state : ParserState} :
    AllSpelled state.lexemes →
    5 * state.lexemes.length + 5 ≤ fuel →
    KeepsFuel (parseOperators context fuel minPrec lhs state)
  unary
    {state : ParserState} :
    AllSpelled state.lexemes →
    5 * state.lexemes.length + 3 ≤ fuel →
    KeepsFuel (parseUnary context fuel state)
  pow
    {state : ParserState} :
    AllSpelled state.lexemes →
    5 * state.lexemes.length + 2 ≤ fuel →
    KeepsFuel (parsePow context fuel state)
  primary
    {state : ParserState} :
    AllSpelled state.lexemes →
    5 * state.lexemes.length + 1 ≤ fuel →
    KeepsFuel (parsePrimary context fuel state)
  arguments
    {state : ParserState} :
    AllSpelled state.lexemes →
    5 * state.lexemes.length + 5 ≤ fuel →
    KeepsFuel (parseArguments context fuel state)
  moreArguments
    {state : ParserState} :
    AllSpelled state.lexemes →
    5 * state.lexemes.length + 1 ≤ fuel →
    KeepsFuel (parseMoreArguments context fuel state)

omit [StringHash] in
/-- A reading passes at least one lexeme. -/
theorem Reading.length_lt
    {level : Level}
    {start rest : List Lexeme}
    (reading : Reading level start rest) :
    rest.length < start.length := by
  obtain ⟨used, expression, start_eq, reads, -⟩ := reading
  have positive := List.length_pos_iff.mpr reads.nonempty
  rw [start_eq, List.length_append]
  omega

omit [StringHash] in
/-- Passing a token that is not the end leaves fewer. -/
theorem length_tail_lt
    {lexemes : List Lexeme}
    {kind : TokKind}
    (isKind : nextKind lexemes = kind)
    (notEnd : kind ≠ .finish) :
    lexemes.tail.length + 1 = lexemes.length := by
  cases lexemes with
  | nil =>
      exact absurd isKind.symm notEnd
  | cons first rest =>
      rfl

namespace ParserEnough

variable {fuel : Nat} {state : ParserState}

/-- `parse_expression`. -/
theorem expression_step
    (enough : ParserEnough context fuel)
    {minPrec : Nat}
    (spelled : AllSpelled state.lexemes)
    (bound : 5 * state.lexemes.length + 4 ≤ fuel + 1) :
    KeepsFuel (parseExpression context (fuel + 1) minPrec state) := by
  simp only [parseExpression]
  refine Outcome.onlyThrows_bind (enough.unary spelled (by omega)) ?_
  intro lhs lhsParsed
  have reading := ((parserReads context fuel).unary spelled lhsParsed).1
  have shorter := reading.length_lt
  exact enough.operators (spelled.rest reading) (by omega)

/-- A right operand, and the rest of the loop. -/
theorem round
    (enough : ParserEnough context fuel)
    {minPrec operandPrec : Nat}
    {next : ParserState}
    (spelled : AllSpelled next.lexemes)
    (bound : 5 * next.lexemes.length + 4 ≤ fuel)
    (operandPrec_eq : operandPrec = 2 ∨ operandPrec = 3)
    (combine : Nat × ParserState → Nat × ParserState)
    (lexemes_eq : ∀ rhs, (combine rhs).2.lexemes = rhs.2.lexemes) :
    KeepsFuel
      (parseExpression context fuel operandPrec next >>= fun rhs =>
        parseOperators context fuel minPrec (combine rhs).1 (combine rhs).2) := by
  refine Outcome.onlyThrows_bind (enough.expression spelled bound) ?_
  intro rhs rhsParsed
  have shorter : AllSpelled rhs.2.lexemes ∧
      rhs.2.lexemes.length < next.lexemes.length := by
    rcases operandPrec_eq with isTerm | isOperand
    · subst isTerm
      have reading := ((parserReads context fuel).term spelled rhsParsed).1
      exact ⟨spelled.rest reading, reading.length_lt⟩
    · subst isOperand
      have reading := ((parserReads context fuel).operand spelled rhsParsed).1
      exact ⟨spelled.rest reading, reading.length_lt⟩
  rw [← lexemes_eq rhs] at shorter
  exact enough.operators shorter.1 (by omega)

/-- The loop of `parse_expression`. -/
theorem operators_step
    (enough : ParserEnough context fuel)
    {minPrec lhs : Nat}
    (spelled : AllSpelled state.lexemes)
    (bound : 5 * state.lexemes.length + 5 ≤ fuel + 1) :
    KeepsFuel (parseOperators context (fuel + 1) minPrec lhs state) := by
  have advanced : AllSpelled state.advance.lexemes := by
    simpa using spelled.tail
  have shorter : state.advance.lexemes.length ≤ state.lexemes.length := by
    simp
  simp only [parseOperators]
  split_ifs with additive isMinus multiplicative isSlash implicit
  · exact enough.round advanced (by omega) (Or.inl rfl)
      (subtractOperands lhs) fun _ => rfl
  · exact enough.round advanced (by omega) (Or.inl rfl)
      (addOperands lhs) fun _ => rfl
  · exact enough.round advanced (by omega) (Or.inr rfl)
      (divideOperands lhs) fun _ => rfl
  · exact enough.round advanced (by omega) (Or.inr rfl)
      (mulOperands lhs) fun _ => rfl
  · exact enough.round spelled (by omega) (Or.inr rfl)
      (mulOperands lhs) fun _ => rfl
  · exact Outcome.onlyThrows_ok

/-- An exponent after its caret. -/
theorem exponent
    (enough : ParserEnough context fuel)
    (caret : state.peek.kind = .caret)
    (spelled : AllSpelled state.lexemes)
    (bound : 5 * state.lexemes.length ≤ fuel + 2)
    (base : Nat) :
    KeepsFuel
      (parseUnary context fuel state.advance >>= fun exponent =>
        Except.ok
          (exponent.2.build (exponent.2.store.pow base exponent.1))) := by
  rw [ParserState.kind_peek] at caret
  have shorter := length_tail_lt caret TokKind.noConfusion
  refine Outcome.onlyThrows_bind (enough.unary ?_ ?_) ?_
  · simpa using spelled.tail
  · rw [ParserState.lexemes_advance]
    omega
  · intro exponent _
    exact Outcome.onlyThrows_ok

/-- `parse_unary`. -/
theorem unary_step
    (enough : ParserEnough context fuel)
    (spelled : AllSpelled state.lexemes)
    (bound : 5 * state.lexemes.length + 3 ≤ fuel + 1) :
    KeepsFuel (parseUnary context (fuel + 1) state) := by
  have advanced : AllSpelled state.advance.lexemes := by
    simpa using spelled.tail
  simp only [parseUnary]
  split_ifs with minus number empty caret plus
  · exact keepsFuel_fail _ _
  · refine enough.exponent caret ?_ ?_ _
    · simpa using spelled.tail.tail
    · simp only [lexemes_numeral, ParserState.lexemes_advance, List.length_tail]
      omega
  · exact Outcome.onlyThrows_ok
  · rw [ParserState.kind_peek] at minus
    have shorter := length_tail_lt minus TokKind.noConfusion
    refine Outcome.onlyThrows_bind (enough.unary advanced ?_)
      fun _ _ => Outcome.onlyThrows_ok
    rw [ParserState.lexemes_advance]
    omega
  · rw [ParserState.kind_peek] at plus
    have shorter := length_tail_lt plus TokKind.noConfusion
    refine enough.unary advanced ?_
    rw [ParserState.lexemes_advance]
    omega
  · exact enough.pow spelled (by omega)

/-- `parse_pow`. -/
theorem pow_step
    (enough : ParserEnough context fuel)
    (spelled : AllSpelled state.lexemes)
    (bound : 5 * state.lexemes.length + 2 ≤ fuel + 1) :
    KeepsFuel (parsePow context (fuel + 1) state) := by
  simp only [parsePow]
  refine Outcome.onlyThrows_bind (enough.primary spelled (by omega)) ?_
  intro base baseParsed
  have reading := (parserReads context fuel).primary spelled baseParsed
  have shorter := reading.length_lt
  split_ifs with caret
  · exact enough.exponent caret (spelled.rest reading) (by omega) _
  · exact Outcome.onlyThrows_ok

/-- `parse_primary`. -/
theorem primary_step
    (enough : ParserEnough context fuel)
    (spelled : AllSpelled state.lexemes)
    (bound : 5 * state.lexemes.length + 1 ≤ fuel + 1) :
    KeepsFuel (parsePrimary context (fuel + 1) state) := by
  have advanced : AllSpelled state.advance.lexemes := by
    simpa using spelled.tail
  simp only [parsePrimary]
  split
  · split_ifs
    · exact keepsFuel_fail _ _
    · exact Outcome.onlyThrows_ok
  · rename_i isIdent
    rw [ParserState.kind_peek] at isIdent
    have shorter := length_tail_lt isIdent TokKind.noConfusion
    split
    · intro error throws
      cases throws
      exact ParseError.noConfusion
    · split_ifs with isCall
      · have isCall : nextKind state.lexemes.tail = .lParen := by
          simpa using isCall
        have shorterAgain := length_tail_lt isCall TokKind.noConfusion
        refine Outcome.onlyThrows_bind (enough.arguments ?_ ?_) ?_
        · simpa using spelled.tail.tail
        · simp only [lexemes_withTable, ParserState.lexemes_advance]
          omega
        · intro arguments _
          exact Outcome.onlyThrows_bind (keepsFuel_expect _ _ _)
            fun _ _ => Outcome.onlyThrows_ok
      · exact Outcome.onlyThrows_ok
  · rename_i isParen
    rw [ParserState.kind_peek] at isParen
    have shorter := length_tail_lt isParen TokKind.noConfusion
    refine Outcome.onlyThrows_bind (enough.expression advanced ?_) ?_
    · rw [ParserState.lexemes_advance]
      omega
    · intro inner _
      exact Outcome.onlyThrows_bind (keepsFuel_expect _ _ _)
        fun _ _ => Outcome.onlyThrows_ok
  · exact keepsFuel_fail _ _

/-- An argument, and those after it. -/
theorem argument
    (enough : ParserEnough context fuel)
    (spelled : AllSpelled state.lexemes)
    (bound : 5 * state.lexemes.length + 4 ≤ fuel) :
    KeepsFuel
      (parseExpression context fuel 1 state >>= fun first =>
        parseMoreArguments context fuel first.2 >>= fun others =>
          Except.ok (first.1 :: others.1, others.2)) := by
  refine Outcome.onlyThrows_bind (enough.expression spelled bound) ?_
  intro first firstParsed
  have reading := (parserReads context fuel).whole spelled firstParsed
  have shorter := reading.length_lt
  exact Outcome.onlyThrows_bind
    (enough.moreArguments (spelled.rest reading) (by omega))
    fun _ _ => Outcome.onlyThrows_ok

/-- The arguments of a call. -/
theorem arguments_step
    (enough : ParserEnough context fuel)
    (spelled : AllSpelled state.lexemes)
    (bound : 5 * state.lexemes.length + 5 ≤ fuel + 1) :
    KeepsFuel (parseArguments context (fuel + 1) state) := by
  simp only [parseArguments]
  split_ifs
  · exact Outcome.onlyThrows_ok
  · exact enough.argument spelled (by omega)

/-- The arguments after a comma. -/
theorem moreArguments_step
    (enough : ParserEnough context fuel)
    (spelled : AllSpelled state.lexemes)
    (bound : 5 * state.lexemes.length + 1 ≤ fuel + 1) :
    KeepsFuel (parseMoreArguments context (fuel + 1) state) := by
  simp only [parseMoreArguments]
  split_ifs with comma
  · rw [ParserState.kind_peek] at comma
    have shorter := length_tail_lt comma TokKind.noConfusion
    refine enough.argument ?_ ?_
    · simpa using spelled.tail
    · rw [ParserState.lexemes_advance]
      omega
  · exact Outcome.onlyThrows_ok

end ParserEnough

/-- Five units of fuel a lexeme, and some more, are enough. -/
theorem parserEnough
    (context : ParserContext)
    (fuel : Nat) :
    ParserEnough context fuel := by
  induction fuel with
  | zero =>
      exact ⟨nofun, nofun, nofun, nofun, nofun, nofun, nofun⟩
  | succ fuel inductionHypothesis =>
      exact {
        expression := inductionHypothesis.expression_step
        operators := inductionHypothesis.operators_step
        unary := inductionHypothesis.unary_step
        pow := inductionHypothesis.pow_step
        primary := inductionHypothesis.primary_step
        arguments := inductionHypothesis.arguments_step
        moreArguments := inductionHypothesis.moreArguments_step }

/-- The text has these lexemes before its end. -/
def HasLexemes (text : Text) (lexemes : List Lexeme) : Prop :=
  ∃ tokens,
    tokenize text = .ok tokens ∧
      tokens.map Token.lexeme = lexemes ++ [(.finish, [])]

omit [StringHash] in
/-- What the tokenizer writes is spelled right. -/
theorem allSpelled_of_tokenize
    {text : Text}
    {tokens : List Token}
    (tokenized : tokenize text = .ok tokens) :
    AllSpelled (tokens.map Token.lexeme) := by
  intro lexeme member
  obtain ⟨token, tokenMember, rfl⟩ := List.mem_map.mp member
  exact (tokenizeFuel_scanned tokenized).spelled token tokenMember

omit [StringHash] in
/-- The lexemes of a text are those before the end. -/
theorem exists_hasLexemes
    {text : Text}
    {tokens : List Token}
    (tokenized : tokenize text = .ok tokens) :
    ∃ lexemes,
      tokens.map Token.lexeme = lexemes ++ [(.finish, [])] ∧
        ∀ lexeme ∈ lexemes, lexeme.1 ≠ .finish := by
  obtain ⟨front, pos, tokens_eq, holds⟩ := (tokenizeFuel_scanned tokenized).shape
  refine ⟨front.map Token.lexeme, by simp [tokens_eq, Token.lexeme], ?_⟩
  intro lexeme member
  obtain ⟨token, tokenMember, rfl⟩ := List.mem_map.mp member
  exact (holds token tokenMember).1

omit [StringHash] in
/-- The end comes first in a rest only after all other lexemes. -/
theorem eq_of_ends
    {used rest lexemes : List Lexeme}
    (usedInner : ∀ lexeme ∈ used, lexeme.1 ≠ .finish)
    (inner : ∀ lexeme ∈ lexemes, lexeme.1 ≠ .finish)
    (same : used ++ rest = lexemes ++ [(.finish, [])])
    (atEnd : nextKind rest = .finish) :
    used = lexemes := by
  rcases List.append_eq_append_iff.mp same with
    ⟨between, lexemes_eq, rest_eq⟩ | ⟨between, used_eq, last_eq⟩
  · cases between with
    | nil =>
        rw [lexemes_eq, List.append_nil]
    | cons first others =>
        subst rest_eq
        exact absurd atEnd (inner first (by simp [lexemes_eq]))
  · cases between with
    | nil =>
        rw [used_eq, List.append_nil]
    | cons first others =>
        have isEnd : (TokKind.finish, []) = first := List.head_eq_of_cons_eq last_eq
        subst first
        exact absurd rfl (usedInner (.finish, []) (by simp [used_eq]))

/-- What the parser does after the tokenizer. -/
theorem parse_cases
    {text : Text}
    {store : AtomStore}
    {table : Snapshot}
    {result : Nat × ParserState}
    (parsed : parse context text store table = .ok result) :
    ∃ tokens fuel whole,
      tokenize text = .ok tokens ∧
        parseExpression context fuel 1 ⟨tokens, store, table⟩ = .ok whole ∧
        nextKind whole.2.lexemes = .finish ∧
        result = (whole.1, whole.2.advance) := by
  obtain ⟨tokens, tokenized, rest⟩ := Outcome.bind_eq_ok.mp parsed
  split_ifs at rest
  · cases rest
  · obtain ⟨whole, wholeParsed, closed⟩ := Outcome.bind_eq_ok.mp rest
    obtain ⟨passed, expected, finished⟩ := Outcome.bind_eq_ok.mp closed
    rw [ParserState.expect, ParserState.kind_peek] at expected
    split_ifs at expected with atEnd
    · cases expected
      cases finished
      exact ⟨tokens, _, whole, tokenized, wholeParsed, atEnd, rfl⟩
    · cases expected

/-- An accepted text is derivable. -/
theorem parse_reads
    {text : Text}
    {store : AtomStore}
    {table : Snapshot}
    {result : Nat × ParserState}
    (parsed : parse context text store table = .ok result) :
    ∃ lexemes expression,
      HasLexemes text lexemes ∧
        Reads .negativeLiterals .sum lexemes expression := by
  obtain ⟨tokens, fuel, whole, tokenized, wholeParsed, atEnd, -⟩ :=
    parse_cases parsed
  obtain ⟨lexemes, tokens_eq, inner⟩ := exists_hasLexemes tokenized
  obtain ⟨used, expression, used_eq, reads, -⟩ :=
    (parserReads context fuel).whole (allSpelled_of_tokenize tokenized) wholeParsed
  have same : used ++ whole.2.lexemes = lexemes ++ [(.finish, [])] :=
    used_eq.symm.trans tokens_eq
  have used_eq := eq_of_ends reads.ne_finish inner same atEnd
  subst used_eq
  exact ⟨used, expression, ⟨tokens, tokenized, tokens_eq⟩, reads⟩

omit [StringHash] in
/-- Scanning takes no fuel away. -/
theorem keepsFuel_tokenizeFuel
    (fuel : Nat)
    (text : Text)
    (pos : Nat) :
    KeepsFuel (tokenizeFuel fuel text pos) := by
  have keepsFuel_map
      {outcome : Except ParseError (List Token)}
      (keeps : KeepsFuel outcome)
      (token : Token) :
      KeepsFuel (outcome.map fun tokens => token :: tokens) := by
    cases outcome with
    | error error =>
        exact fun other same => keeps other (by cases same; rfl)
    | ok tokens =>
        exact Outcome.onlyThrows_ok
  induction fuel generalizing text pos with
  | zero =>
      exact Outcome.onlyThrows_ok
  | succ fuel inductionHypothesis =>
      cases text with
      | nil =>
          exact Outcome.onlyThrows_ok
      | cons first rest =>
          simp only [tokenizeFuel]
          split_ifs
          · exact inductionHypothesis _ _
          · exact keepsFuel_map (inductionHypothesis _ _) _
          · exact keepsFuel_map (inductionHypothesis _ _) _
          · cases punctuation? first with
            | none =>
                exact keepsFuel_fail _ _
            | some kind =>
                exact keepsFuel_map (inductionHypothesis _ _) _

/-- A parse never runs out of fuel. -/
theorem parse_keepsFuel
    (text : Text)
    (store : AtomStore)
    (table : Snapshot) :
    KeepsFuel (parse context text store table) := by
  refine Outcome.onlyThrows_bind (keepsFuel_tokenizeFuel _ _ _) ?_
  intro tokens tokenized
  split_ifs
  · exact keepsFuel_fail _ _
  · refine Outcome.onlyThrows_bind ?_ fun _ _ =>
      Outcome.onlyThrows_bind (keepsFuel_expect _ _ _)
        fun _ _ => Outcome.onlyThrows_ok
    refine (parserEnough context _).expression
      (allSpelled_of_tokenize tokenized) ?_
    simp [ParserState.lexemes, parserFuel]

end Parser

end AtomCore
