import Stocas.Atom.GrammarValue
import Stocas.Library.Outcome

namespace AtomCore

open SymbolTable (Snapshot Symbol Text)
open NumericaCore (bigIntOfString)

/-!
# Derivable lexemes are accepted

On lexemes that the grammar derives, at any level and in either dialect, the parser throws
no syntax error, and what it leaves is what follows them.  Errors of the symbol table are
not excluded here: they are no matter of syntax.
-/

/-- What starts with a numeral and a caret raises the numeral. -/
theorem Reads.raised
    {dialect : Dialect}
    {lexemes : List Lexeme}
    {operand : Expression}
    (reads : Reads dialect .unary lexemes operand)
    (raises : RaisesNumeral lexemes) :
    ∃ text exponentLexemes exponent,
      lexemes = (.number, text) :: (.caret, []) :: exponentLexemes ∧
        IsNumeral text ∧ Reads dialect .unary exponentLexemes exponent := by
  have isNumber : nextKind lexemes = .number := by
    unfold RaisesNumeral at raises
    split at raises
    · rfl
    · exact raises.elim
  cases reads with
  | unsigned power =>
      cases power with
      | base primary =>
          obtain ⟨text, -, lexemes_eq, -⟩ := primary.primary_numeral isNumber
          subst lexemes_eq
          exact raises.elim
      | caret primary exponent =>
          rw [nextKind_append primary.nonempty] at isNumber
          obtain ⟨text, numeral, lexemes_eq, -⟩ := primary.primary_numeral isNumber
          subst lexemes_eq
          exact ⟨text, _, _, rfl, numeral, exponent⟩
  | plus | minus | raisedLiteral =>
      cases isNumber

/-- Arguments that can be derived one by one can be derived together. -/
theorem exists_arguments
    {dialect : Dialect}
    {arguments : List (List Lexeme × Expression)}
    (all :
      ∀ argument ∈ arguments, ∃ other, Reads dialect .sum argument.1 other) :
    ∃ others : List (List Lexeme × Expression),
      others.map Prod.fst = arguments.map Prod.fst ∧
        ∀ other ∈ others, Reads dialect .sum other.1 other.2 := by
  induction arguments with
  | nil =>
      exact ⟨[], rfl, List.forall_mem_nil _⟩
  | cons argument rest inductionHypothesis =>
      obtain ⟨other, reads⟩ := all argument (by simp)
      obtain ⟨others, same, othersRead⟩ :=
        inductionHypothesis fun later member => all later (by simp [member])
      refine ⟨(argument.1, other) :: others, by simp [same], ?_⟩
      simpa using And.intro reads othersRead

/-- What one dialect derives, the dialect with negative literals derives. -/
theorem Reads.negativeLiterals
    {dialect : Dialect}
    {level : Level}
    {lexemes : List Lexeme}
    {expression : Expression}
    (reads : Reads dialect level lexemes expression) :
    ∃ other, Reads .negativeLiterals level lexemes other := by
  induction reads with
  | number numeral =>
      exact ⟨_, .number numeral⟩
  | var =>
      exact ⟨_, .var⟩
  | call _ inductionHypothesis =>
      obtain ⟨others, same, othersRead⟩ := exists_arguments inductionHypothesis
      rw [← same]
      exact ⟨_, .call othersRead⟩
  | parenthesized _ inner =>
      obtain ⟨other, reads⟩ := inner
      exact ⟨other, .parenthesized reads⟩
  | base _ inner =>
      obtain ⟨other, reads⟩ := inner
      exact ⟨other, .base reads⟩
  | caret _ _ base exponent =>
      obtain ⟨base, baseReads⟩ := base
      obtain ⟨exponent, exponentReads⟩ := exponent
      exact ⟨_, .caret baseReads exponentReads⟩
  | unsigned _ inner =>
      obtain ⟨other, reads⟩ := inner
      exact ⟨other, .unsigned reads⟩
  | plus _ inner =>
      obtain ⟨other, reads⟩ := inner
      exact ⟨other, .plus reads⟩
  | @minus lexemes _ _ _ inner =>
      obtain ⟨other, reads⟩ := inner
      by_cases raises : RaisesNumeral lexemes
      · obtain ⟨text, exponentLexemes, exponent, lexemes_eq, numeral, exponentReads⟩ :=
          reads.raised raises
        subst lexemes_eq
        exact ⟨_, .raisedLiteral rfl numeral exponentReads⟩
      · exact ⟨_, .minus reads fun _ => raises⟩
  | raisedLiteral _ numeral _ exponent =>
      obtain ⟨exponent, reads⟩ := exponent
      exact ⟨_, .raisedLiteral rfl numeral reads⟩
  | factor _ inner =>
      obtain ⟨other, reads⟩ := inner
      exact ⟨other, .factor reads⟩
  | times _ _ left right =>
      obtain ⟨left, leftReads⟩ := left
      obtain ⟨right, rightReads⟩ := right
      exact ⟨_, .times leftReads rightReads⟩
  | divide _ _ left right =>
      obtain ⟨left, leftReads⟩ := left
      obtain ⟨right, rightReads⟩ := right
      exact ⟨_, .divide leftReads rightReads⟩
  | adjacent _ _ noCall left right =>
      obtain ⟨left, leftReads⟩ := left
      obtain ⟨right, rightReads⟩ := right
      exact ⟨_, .adjacent leftReads rightReads noCall⟩
  | term _ inner =>
      obtain ⟨other, reads⟩ := inner
      exact ⟨other, .term reads⟩
  | add _ _ left right =>
      obtain ⟨left, leftReads⟩ := left
      obtain ⟨right, rightReads⟩ := right
      exact ⟨_, .add leftReads rightReads⟩
  | subtract _ _ left right =>
      obtain ⟨left, leftReads⟩ := left
      obtain ⟨right, rightReads⟩ := right
      exact ⟨_, .subtract leftReads rightReads⟩

/-- A run throws no syntax error, and leaves these lexemes when it returns. -/
structure Passes
    {α : Type}
    (rest : List Lexeme)
    (outcome : Except ParseError (α × ParserState)) : Prop where
  left
    {result : α × ParserState} :
    outcome = .ok result →
    result.2.lexemes = rest
  accepts :
    Outcome.OnlyThrows (fun error => ∀ message, error ≠ .invalidArgument message) outcome

/-- A result passes to what its state has left. -/
theorem passes_ok
    {α : Type}
    {rest : List Lexeme}
    {result : α × ParserState}
    (left : result.2.lexemes = rest) :
    Passes rest (.ok result) := by
  refine ⟨?_, Outcome.onlyThrows_ok⟩
  intro other same
  cases same
  exact left

/-- No fuel is no syntax error. -/
theorem passes_outOfFuel
    {α : Type}
    (rest : List Lexeme) :
    Passes (α := α) rest (.error .outOfFuel) := by
  refine ⟨?_, ?_⟩
  · intro result impossible
    cases impossible
  · intro error throws message
    cases throws
    exact ParseError.noConfusion

/-- A conflict in the table is no syntax error. -/
theorem passes_symbolTable
    {α : Type}
    (rest : List Lexeme)
    (error : SymbolTable.TableError) :
    Passes (α := α) rest (.error (.symbolTable error)) := by
  refine ⟨?_, ?_⟩
  · intro result impossible
    cases impossible
  · intro other throws message
    cases throws
    exact ParseError.noConfusion

/-- One run after another. -/
theorem Passes.bind
    {α β : Type}
    {middle rest : List Lexeme}
    {first : Except ParseError (α × ParserState)}
    {next : α × ParserState → Except ParseError (β × ParserState)}
    (firstPasses : Passes middle first)
    (nextPasses :
      ∀ result : α × ParserState,
        result.2.lexemes = middle → Passes rest (next result)) :
    Passes rest (first >>= next) := by
  cases first with
  | error error =>
      refine ⟨?_, ?_⟩
      · intro result impossible
        cases impossible
      · intro other throws
        cases throws
        exact firstPasses.accepts error rfl
  | ok result =>
      exact nextPasses result (firstPasses.left rfl)

/-- An expected punctuation that is there. -/
theorem Passes.expect
    {α : Type}
    {rest : List Lexeme}
    {state : ParserState}
    {kind : TokKind}
    {message : Text}
    {next : ParserState → Except ParseError (α × ParserState)}
    (isKind : nextKind state.lexemes = kind)
    (nextPasses : Passes rest (next state.advance)) :
    Passes rest (state.expect kind message >>= next) := by
  rw [← ParserState.kind_peek] at isKind
  rw [ParserState.expect, if_pos isKind, Outcome.ok_bind]
  exact nextPasses

section Parser

variable [StringHash] {context : ParserContext}

/-- On these lexemes every run passes to what follows them. -/
def Accepts
    (parser : Nat → ParserState → Parsed)
    (follows : TokKind → Prop)
    (lexemes : List Lexeme) : Prop :=
  ∀ (fuel : Nat) (state : ParserState) (rest : List Lexeme),
    state.lexemes = lexemes ++ rest →
    NoCall lexemes (nextKind rest) →
    follows (nextKind rest) →
    Passes rest (parser fuel state)

/--
On these lexemes every run of `parse_expression` comes to its loop behind them; where the
loop goes from there, the run goes.
-/
def ReachesLoop
    (context : ParserContext)
    (maxPrec : Nat)
    (follows : TokKind → Prop)
    (lexemes : List Lexeme) : Prop :=
  ∀ (fuel minPrec : Nat) (state : ParserState) (rest final : List Lexeme),
    minPrec ≤ maxPrec →
    state.lexemes = lexemes ++ rest →
    NoCall lexemes (nextKind rest) →
    follows (nextKind rest) →
    (∀ (left lhs : Nat) (later : ParserState),
      later.lexemes = rest →
      Passes final (parseOperators context left minPrec lhs later)) →
    Passes final (parseExpression context fuel minPrec state)

variable {lexemes : List Lexeme}

/-- At the kinds where it stops the loop passes nothing. -/
theorem passes_of_stops
    {minPrec : Nat}
    {state : ParserState}
    (stops : Stops minPrec (nextKind state.lexemes))
    (fuel lhs : Nat) :
    Passes state.lexemes (parseOperators context fuel minPrec lhs state) := by
  cases fuel with
  | zero =>
      exact passes_outOfFuel _
  | succ fuel =>
      simp only [parseOperators, ParserState.kind_peek]
      split_ifs with additive isMinus multiplicative isSlash implicit
      · exact absurd isMinus (stops.noSum additive.2).2
      · exact absurd (additive.1.resolve_right isMinus) (stops.noSum additive.2).1
      · exact absurd (Or.inl multiplicative.1) (stops.noProduct multiplicative.2)
      · exact absurd (Or.inl multiplicative.1) (stops.noProduct multiplicative.2)
      · exact absurd (Or.inr implicit.1) (stops.noProduct implicit.2)
      · exact passes_ok rfl

/-- At an operator the loop parses an operand and goes on. -/
theorem passes_operator
    {operator : TokKind}
    {combine : Nat → Nat × ParserState → Nat × ParserState}
    {level minPrec : Nat}
    (isOperator : operatorRound operator = some (combine, level))
    (goesOn : ¬Stops minPrec operator)
    {state : ParserState}
    (isKind : nextKind state.lexemes = operator)
    {middle final : List Lexeme}
    {fuel lhs : Nat}
    (operand : Passes middle (parseExpression context fuel level state.advance))
    (loop :
      ∀ (left lhs : Nat) (later : ParserState),
        later.lexemes = middle →
        Passes final (parseOperators context left minPrec lhs later)) :
    Passes final (parseOperators context (fuel + 1) minPrec lhs state) := by
  have additive : operator = .plus ∨ operator = .minus → minPrec ≤ 1 := by
    intro isAdditive
    by_contra high
    refine goesOn ⟨fun _ => ?_, fun low => absurd low high⟩
    rcases isAdditive with isPlus | isMinus
    · simp [isPlus, Multiplies, startsPrimary]
    · simp [isMinus, Multiplies, startsPrimary]
  have multiplicative : operator = .star ∨ operator = .slash → minPrec ≤ 2 := by
    intro isMultiplicative
    by_contra high
    exact goesOn ⟨fun low => absurd low high,
      fun low => absurd (low.trans (by decide)) high⟩
  simp only [parseOperators, ParserState.kind_peek, isKind]
  cases operator with
  | plus =>
      cases isOperator
      simp only [additive (Or.inl rfl)]
      exact operand.bind fun rhs left => loop _ _ _ left
  | minus =>
      cases isOperator
      simp only [additive (Or.inr rfl)]
      exact operand.bind fun rhs left => loop _ _ _ left
  | star =>
      cases isOperator
      simp only [multiplicative (Or.inl rfl)]
      exact operand.bind fun rhs left => loop _ _ _ left
  | slash =>
      cases isOperator
      simp only [multiplicative (Or.inr rfl)]
      exact operand.bind fun rhs left => loop _ _ _ left
  | _ =>
      cases isOperator

/-- At the start of an operand the loop parses it and goes on. -/
theorem passes_adjacent
    {minPrec : Nat}
    (low : minPrec ≤ 2)
    {state : ParserState}
    (starts : startsPrimary (nextKind state.lexemes) = true)
    {middle final : List Lexeme}
    {fuel lhs : Nat}
    (operand : Passes middle (parseExpression context fuel 3 state))
    (loop :
      ∀ (left lhs : Nat) (later : ParserState),
        later.lexemes = middle →
        Passes final (parseOperators context left minPrec lhs later)) :
    Passes final (parseOperators context (fuel + 1) minPrec lhs state) := by
  simp only [parseOperators, ParserState.kind_peek]
  split_ifs with additive isMinus multiplicative isSlash implicit
  · rw [isMinus] at starts
    cases starts
  · rw [additive.1.resolve_right isMinus] at starts
    cases starts
  · rw [isSlash] at starts
    cases starts
  · rw [multiplicative.1.resolve_right isSlash] at starts
    cases starts
  · exact operand.bind fun rhs left => loop _ _ _ left
  · exact absurd ⟨starts, low⟩ implicit

/-- `parse_expression(3)` accepts an operand. -/
theorem Accepts.operand
    (accepts : Accepts (parseUnary context) EndsOperand lexemes) :
    Accepts (fun fuel => parseExpression context fuel 3) EndsOperand lexemes := by
  intro fuel state rest lexemes_eq noCall follows
  cases fuel with
  | zero =>
      exact passes_outOfFuel _
  | succ fuel =>
      simp only [parseExpression]
      refine (accepts fuel state rest lexemes_eq noCall follows).bind ?_
      intro lhs left
      subst left
      exact passes_of_stops ⟨fun low => absurd low (by decide),
        fun low => absurd low (by decide)⟩ fuel lhs.1

/-- `parse_expression(2)` accepts a term. -/
theorem ReachesLoop.term
    (reaches : ReachesLoop context 2 EndsOperand lexemes) :
    Accepts (fun fuel => parseExpression context fuel 2) EndsProduct lexemes := by
  intro fuel state rest lexemes_eq noCall follows
  refine reaches fuel 2 state rest rest le_rfl lexemes_eq noCall follows.1 ?_
  intro left lhs later later_eq
  subst later_eq
  exact passes_of_stops ⟨fun _ => follows.2, fun low => absurd low (by decide)⟩ left lhs

omit [StringHash] in
/-- What ends an expression ends a term of it, and the loop. -/
theorem EndsExpression.stops
    {kind : TokKind}
    (ends : EndsExpression kind) :
    EndsProduct kind ∧ Stops 1 kind := by
  rcases ends with isEnd | isEnd | isEnd <;> subst isEnd
  all_goals
    refine ⟨?_, ?_, fun _ => ⟨TokKind.noConfusion, TokKind.noConfusion⟩⟩
    · simp [EndsProduct, Multiplies, startsPrimary]
    · simp [Multiplies, startsPrimary]

/-- `parse_expression(1)` accepts a whole expression. -/
theorem ReachesLoop.whole
    (reaches : ReachesLoop context 1 EndsProduct lexemes) :
    Accepts (fun fuel => parseExpression context fuel 1) EndsExpression lexemes := by
  intro fuel state rest lexemes_eq noCall follows
  obtain ⟨ends, stops⟩ := follows.stops
  refine reaches fuel 1 state rest rest le_rfl lexemes_eq noCall ends ?_
  intro left lhs later later_eq
  subst later_eq
  exact passes_of_stops stops left lhs

/-- The loop comes after a factor. -/
theorem Accepts.factor
    (accepts : Accepts (parseUnary context) EndsOperand lexemes) :
    ReachesLoop context 2 EndsOperand lexemes := by
  intro fuel minPrec state rest final _ lexemes_eq noCall follows loop
  cases fuel with
  | zero =>
      exact passes_outOfFuel _
  | succ fuel =>
      simp only [parseExpression]
      exact (accepts fuel state rest lexemes_eq noCall follows).bind
        fun lhs left => loop _ _ _ left

/-- The loop comes after an operator and its operand, too. -/
theorem ReachesLoop.operator
    {maxPrec level : Nat}
    {leftFollows rightFollows : TokKind → Prop}
    {operator : TokKind}
    {combine : Nat → Nat × ParserState → Nat × ParserState}
    (isOperator : operatorRound operator = some (combine, level))
    (follows : operator ≠ .lParen ∧ leftFollows operator)
    (goesOn : ∀ {minPrec : Nat}, minPrec ≤ maxPrec → ¬Stops minPrec operator)
    {leftLexemes rightLexemes : List Lexeme}
    (reaches : ReachesLoop context maxPrec leftFollows leftLexemes)
    (operand :
      Accepts (fun fuel => parseExpression context fuel level) rightFollows
        rightLexemes)
    (nonempty : rightLexemes ≠ []) :
    ReachesLoop context maxPrec rightFollows
      (leftLexemes ++ (operator, []) :: rightLexemes) := by
  intro fuel minPrec state rest final low lexemes_eq noCall rightEnds loop
  have lexemes_eq :
      state.lexemes = leftLexemes ++ (operator, []) :: (rightLexemes ++ rest) := by
    rw [lexemes_eq, List.append_assoc, List.cons_append]
  rw [List.append_cons] at noCall
  refine reaches fuel minPrec state _ final low lexemes_eq (fun _ => follows.1)
    follows.2 ?_
  intro left lhs later later_eq
  cases left with
  | zero =>
      exact passes_outOfFuel _
  | succ left =>
      have next : nextKind later.lexemes = operator := by
        rw [later_eq]
        rfl
      exact passes_operator isOperator (goesOn low) next
        (operand left later.advance rest (by simp [later_eq])
          (noCall.of_append nonempty) rightEnds)
        loop

/-- The loop comes after one factor more. -/
theorem ReachesLoop.adjacent
    {leftLexemes rightLexemes : List Lexeme}
    (reaches : ReachesLoop context 2 EndsOperand leftLexemes)
    (operand :
      Accepts (fun fuel => parseExpression context fuel 3) EndsOperand rightLexemes)
    (starts : startsPrimary (nextKind rightLexemes) = true)
    (nonempty : rightLexemes ≠ [])
    (leftNoCall : NoCall leftLexemes (nextKind rightLexemes)) :
    ReachesLoop context 2 EndsOperand (leftLexemes ++ rightLexemes) := by
  intro fuel minPrec state rest final low lexemes_eq noCall follows loop
  rw [List.append_assoc] at lexemes_eq
  have next : nextKind (rightLexemes ++ rest) = nextKind rightLexemes :=
    nextKind_append nonempty rest
  have notCaret := endsOperand_of_startsPrimary starts
  rw [← next] at leftNoCall notCaret starts
  refine reaches fuel minPrec state _ final low lexemes_eq leftNoCall notCaret ?_
  intro left lhs later later_eq
  cases left with
  | zero =>
      exact passes_outOfFuel _
  | succ left =>
      rw [← later_eq] at starts
      exact passes_adjacent low starts
        (operand left later rest later_eq (noCall.of_append nonempty) follows) loop

/-- A numeral. -/
theorem accepts_number
    {text : Text}
    (numeral : IsNumeral text) :
    Accepts (parsePrimary context) (fun _ => True) [(.number, text)] := by
  intro fuel state rest lexemes_eq _ _
  obtain ⟨kind, text_eq, advanced⟩ := peek_of_cons lexemes_eq
  cases fuel with
  | zero =>
      exact passes_outOfFuel _
  | succ fuel =>
      simp only [parsePrimary, kind, text_eq, numeral.1, if_false]
      exact passes_ok advanced

/-- A name that no parenthesis follows. -/
theorem accepts_var
    {name : Text} :
    Accepts (parsePrimary context) (fun _ => True) [(.ident, name)] := by
  intro fuel state rest lexemes_eq noCall _
  obtain ⟨kind, text_eq, advanced⟩ := peek_of_cons lexemes_eq
  have advanced : state.advance.lexemes = rest := advanced
  have noParen : nextKind rest ≠ .lParen := noCall ⟨name, rfl⟩
  cases fuel with
  | zero =>
      exact passes_outOfFuel _
  | succ fuel =>
      simp only [parsePrimary, kind, text_eq]
      cases SymbolTable.getSymbol state.table context.namespaceName name []
          context.location with
      | error error =>
          exact passes_symbolTable _ error
      | ok found =>
          dsimp only
          rw [ParserState.kind_peek, lexemes_withTable, advanced, if_neg noParen]
          exact passes_ok advanced

/-- An expression between parentheses. -/
theorem ReachesLoop.parenthesized
    (reaches : ReachesLoop context 1 EndsProduct lexemes) :
    Accepts (parsePrimary context) (fun _ => True) (parenthesized lexemes) := by
  intro fuel state rest lexemes_eq _ _
  have lexemes_eq :
      state.lexemes = (.lParen, []) :: (lexemes ++ (.rParen, []) :: rest) := by
    simpa [AtomCore.parenthesized] using lexemes_eq
  obtain ⟨kind, -, advanced⟩ := peek_of_cons lexemes_eq
  cases fuel with
  | zero =>
      exact passes_outOfFuel _
  | succ fuel =>
      simp only [parsePrimary, kind]
      refine (reaches.whole fuel state.advance _ advanced
        (fun _ => TokKind.noConfusion) (Or.inl rfl)).bind ?_
      intro inner left
      exact .expect (by rw [left]; rfl) (passes_ok (by simp [left]))

/-- An argument, before the others or the end of the call. -/
theorem ReachesLoop.argument
    (reaches : ReachesLoop context 1 EndsProduct lexemes)
    {fuel : Nat}
    {state : ParserState}
    {others : List (List Lexeme)}
    {rest : List Lexeme}
    (lexemes_eq :
      state.lexemes =
        lexemes ++
          (others.flatMap (fun lexemes => (.comma, []) :: lexemes) ++
            (.rParen, []) :: rest)) :
    Passes
      (others.flatMap (fun lexemes => (.comma, []) :: lexemes) ++
        (.rParen, []) :: rest)
      (parseExpression context fuel 1 state) := by
  cases others with
  | nil =>
      exact reaches.whole fuel state _ lexemes_eq (fun _ => TokKind.noConfusion)
        (Or.inl rfl)
  | cons other others =>
      exact reaches.whole fuel state _ lexemes_eq (fun _ => TokKind.noConfusion)
        (Or.inr (Or.inl rfl))

/-- Arguments after the first one, each with its comma. -/
theorem passes_moreArguments
    {arguments : List (List Lexeme)}
    (all : ∀ argument ∈ arguments, ReachesLoop context 1 EndsProduct argument)
    {fuel : Nat}
    {state : ParserState}
    {rest : List Lexeme}
    (lexemes_eq :
      state.lexemes =
        arguments.flatMap (fun lexemes => (.comma, []) :: lexemes) ++
          (.rParen, []) :: rest) :
    Passes ((.rParen, []) :: rest) (parseMoreArguments context fuel state) := by
  induction arguments generalizing fuel state with
  | nil =>
      cases fuel with
      | zero =>
          exact passes_outOfFuel _
      | succ fuel =>
          have next : nextKind state.lexemes = .rParen := by
            rw [lexemes_eq]
            rfl
          simp only [parseMoreArguments, ParserState.kind_peek, next]
          exact passes_ok lexemes_eq
  | cons argument others inductionHypothesis =>
      have lexemes_eq :
          state.lexemes =
            (.comma, []) ::
              (argument ++
                (others.flatMap (fun lexemes => (.comma, []) :: lexemes) ++
                  (.rParen, []) :: rest)) := by
        simpa using lexemes_eq
      obtain ⟨kind, -, advanced⟩ := peek_of_cons lexemes_eq
      cases fuel with
      | zero =>
          exact passes_outOfFuel _
      | succ fuel =>
          simp only [parseMoreArguments, kind, if_true]
          refine ((all argument (by simp)).argument advanced).bind ?_
          intro next left
          refine (inductionHypothesis (fun other member => all other (by simp [member]))
            left).bind ?_
          intro later laterLeft
          exact passes_ok laterLeft

/-- All arguments of a call. -/
theorem passes_arguments
    {arguments : List (List Lexeme)}
    (all : ∀ argument ∈ arguments, ReachesLoop context 1 EndsProduct argument)
    (starts :
      ∀ argument ∈ arguments, argument ≠ [] ∧ nextKind argument ≠ .rParen)
    {fuel : Nat}
    {state : ParserState}
    {rest : List Lexeme}
    (lexemes_eq :
      state.lexemes = joinLexemes .comma arguments ++ (.rParen, []) :: rest) :
    Passes ((.rParen, []) :: rest) (parseArguments context fuel state) := by
  cases fuel with
  | zero =>
      exact passes_outOfFuel _
  | succ fuel =>
      cases arguments with
      | nil =>
          have next : nextKind state.lexemes = .rParen := by
            rw [lexemes_eq]
            rfl
          simp only [parseArguments, ParserState.kind_peek, next, if_true]
          exact passes_ok lexemes_eq
      | cons argument others =>
          obtain ⟨nonempty, noParen⟩ := starts argument (by simp)
          have lexemes_eq :
              state.lexemes =
                argument ++
                  (others.flatMap (fun lexemes => (.comma, []) :: lexemes) ++
                    (.rParen, []) :: rest) := by
            simpa [joinLexemes] using lexemes_eq
          have next : nextKind state.lexemes ≠ .rParen := by
            rwa [lexemes_eq, nextKind_append nonempty]
          simp only [parseArguments, ParserState.kind_peek, next, if_false]
          refine ((all argument (by simp)).argument lexemes_eq).bind ?_
          intro first left
          refine (passes_moreArguments
            (fun other member => all other (by simp [member])) left).bind ?_
          intro later laterLeft
          exact passes_ok laterLeft

/-- A call. -/
theorem accepts_call
    {name : Text}
    {arguments : List (List Lexeme)}
    (all : ∀ argument ∈ arguments, ReachesLoop context 1 EndsProduct argument)
    (starts :
      ∀ argument ∈ arguments, argument ≠ [] ∧ nextKind argument ≠ .rParen) :
    Accepts (parsePrimary context) (fun _ => True)
      ((.ident, name) :: parenthesized (joinLexemes .comma arguments)) := by
  intro fuel state rest lexemes_eq _ _
  have lexemes_eq :
      state.lexemes =
        (.ident, name) :: (.lParen, []) ::
          (joinLexemes .comma arguments ++ (.rParen, []) :: rest) := by
    simpa [parenthesized] using lexemes_eq
  obtain ⟨kind, text_eq, advanced⟩ := peek_of_cons lexemes_eq
  cases fuel with
  | zero =>
      exact passes_outOfFuel _
  | succ fuel =>
      simp only [parsePrimary, kind, text_eq]
      cases SymbolTable.getSymbol state.table context.namespaceName name []
          context.location with
      | error error =>
          exact passes_symbolTable _ error
      | ok found =>
          dsimp only
          have namedLexemes :
              ({ state.advance with table := found.2 } : ParserState).lexemes =
                (.lParen, []) ::
                  (joinLexemes .comma arguments ++ (.rParen, []) :: rest) := by
            rw [lexemes_withTable, advanced]
          obtain ⟨isCall, -, passed⟩ := peek_of_cons namedLexemes
          rw [if_pos isCall]
          refine (passes_arguments all starts passed).bind ?_
          intro slots left
          exact .expect (by rw [left]; rfl) (passes_ok (by simp [left]))

/-- A primary without an exponent. -/
theorem Accepts.base
    (accepts : Accepts (parsePrimary context) (fun _ => True) lexemes) :
    Accepts (parsePow context) EndsOperand lexemes := by
  intro fuel state rest lexemes_eq noCall follows
  cases fuel with
  | zero =>
      exact passes_outOfFuel _
  | succ fuel =>
      simp only [parsePow]
      refine (accepts fuel state rest lexemes_eq noCall trivial).bind ?_
      intro base left
      rw [ParserState.kind_peek, left, if_neg follows]
      exact passes_ok left

/-- A base that has been read, and its exponent. -/
theorem Accepts.raises
    {exponentLexemes : List Lexeme}
    (accepts : Accepts (parseUnary context) EndsOperand exponentLexemes)
    {state : ParserState}
    {rest : List Lexeme}
    (lexemes_eq : state.lexemes = (.caret, []) :: (exponentLexemes ++ rest))
    (noCall : NoCall exponentLexemes (nextKind rest))
    (follows : EndsOperand (nextKind rest))
    (fuel base : Nat) :
    Passes rest
      (if state.peek.kind = .caret then
        parseUnary context fuel state.advance >>= fun exponent =>
          .ok (exponent.2.build (exponent.2.store.pow base exponent.1))
      else
        .ok (base, state)) := by
  obtain ⟨kind, -, advanced⟩ := peek_of_cons lexemes_eq
  rw [if_pos kind]
  refine (accepts fuel state.advance rest advanced noCall follows).bind ?_
  intro exponent left
  exact passes_ok left

/-- A primary with an exponent. -/
theorem Accepts.caret
    {baseLexemes exponentLexemes : List Lexeme}
    (baseAccepts : Accepts (parsePrimary context) (fun _ => True) baseLexemes)
    (exponentAccepts : Accepts (parseUnary context) EndsOperand exponentLexemes)
    (nonempty : exponentLexemes ≠ []) :
    Accepts (parsePow context) EndsOperand
      (baseLexemes ++ (.caret, []) :: exponentLexemes) := by
  intro fuel state rest lexemes_eq noCall follows
  rw [List.append_assoc, List.cons_append] at lexemes_eq
  rw [List.append_cons] at noCall
  cases fuel with
  | zero =>
      exact passes_outOfFuel _
  | succ fuel =>
      simp only [parsePow]
      refine (baseAccepts fuel state _ lexemes_eq (fun _ => TokKind.noConfusion)
        trivial).bind ?_
      intro base left
      exact exponentAccepts.raises left (noCall.of_append nonempty) follows fuel base.1

/-- A power without a sign. -/
theorem Accepts.unsigned
    (accepts : Accepts (parsePow context) EndsOperand lexemes)
    (nonempty : lexemes ≠ [])
    (starts : startsPrimary (nextKind lexemes) = true) :
    Accepts (parseUnary context) EndsOperand lexemes := by
  intro fuel state rest lexemes_eq noCall follows
  have next : state.peek.kind = nextKind lexemes := by
    rw [ParserState.kind_peek, lexemes_eq, nextKind_append nonempty]
  have notMinus : nextKind lexemes ≠ .minus := by
    intro isMinus
    rw [isMinus] at starts
    cases starts
  have notPlus : nextKind lexemes ≠ .plus := by
    intro isPlus
    rw [isPlus] at starts
    cases starts
  cases fuel with
  | zero =>
      exact passes_outOfFuel _
  | succ fuel =>
      simp only [parseUnary, next, notMinus, notPlus, if_false]
      exact accepts fuel state rest lexemes_eq noCall follows

/-- A plus sign. -/
theorem Accepts.plus
    (accepts : Accepts (parseUnary context) EndsOperand lexemes)
    (nonempty : lexemes ≠ []) :
    Accepts (parseUnary context) EndsOperand ((.plus, []) :: lexemes) := by
  intro fuel state rest lexemes_eq noCall follows
  obtain ⟨kind, -, advanced⟩ := peek_of_cons lexemes_eq
  have noCall := @NoCall.of_append [(.plus, [])] _ _ noCall nonempty
  cases fuel with
  | zero =>
      exact passes_outOfFuel _
  | succ fuel =>
      simp only [parseUnary, kind, if_true]
      exact accepts fuel state.advance rest advanced noCall follows

/-- A minus sign before what is no numeral. -/
theorem Accepts.minus
    (accepts : Accepts (parseUnary context) EndsOperand lexemes)
    (nonempty : lexemes ≠ [])
    (noNumeral : nextKind lexemes ≠ .number) :
    Accepts (parseUnary context) EndsOperand ((.minus, []) :: lexemes) := by
  intro fuel state rest lexemes_eq noCall follows
  obtain ⟨kind, -, advanced⟩ := peek_of_cons lexemes_eq
  have noCall := @NoCall.of_append [(.minus, [])] _ _ noCall nonempty
  have lookahead : state.lookahead.kind ≠ .number := by
    rwa [ParserState.lookahead_eq, ParserState.kind_peek, advanced,
      List.append_eq, nextKind_append nonempty]
  cases fuel with
  | zero =>
      exact passes_outOfFuel _
  | succ fuel =>
      simp only [parseUnary, kind, if_true, lookahead, if_false]
      refine (accepts fuel state.advance rest advanced noCall follows).bind ?_
      intro value left
      exact passes_ok left

/-- A negative literal. -/
theorem accepts_literal
    {text : Text}
    (numeral : IsNumeral text) :
    Accepts (parseUnary context) EndsOperand [(.minus, []), (.number, text)] := by
  intro fuel state rest lexemes_eq _ follows
  obtain ⟨kind, -, advanced⟩ := peek_of_cons lexemes_eq
  obtain ⟨lookahead, text_eq, passed⟩ := peek_of_cons advanced
  have passed : state.advance.advance.lexemes = rest := passed
  cases fuel with
  | zero =>
      exact passes_outOfFuel _
  | succ fuel =>
      simp only [parseUnary, ParserState.lookahead_eq, kind, lookahead, text_eq,
        numeral.1, if_true, if_false]
      rw [ParserState.kind_peek, lexemes_numeral, passed, if_neg follows]
      exact passes_ok passed

/-- A negative literal with an exponent. -/
theorem Accepts.raisedLiteral
    {text : Text}
    (numeral : IsNumeral text)
    {exponentLexemes : List Lexeme}
    (accepts : Accepts (parseUnary context) EndsOperand exponentLexemes)
    (nonempty : exponentLexemes ≠ []) :
    Accepts (parseUnary context) EndsOperand
      ((.minus, []) :: (.number, text) :: (.caret, []) :: exponentLexemes) := by
  intro fuel state rest lexemes_eq noCall follows
  have noCall :=
    @NoCall.of_append [(.minus, []), (.number, text), (.caret, [])] _ _ noCall
      nonempty
  obtain ⟨kind, -, advanced⟩ := peek_of_cons lexemes_eq
  obtain ⟨lookahead, text_eq, passed⟩ := peek_of_cons advanced
  have passed :
      (AtomCore.numeral state.advance.advance ('-' :: text)).2.lexemes =
        (.caret, []) :: (exponentLexemes ++ rest) :=
    passed
  cases fuel with
  | zero =>
      exact passes_outOfFuel _
  | succ fuel =>
      simp only [parseUnary, ParserState.lookahead_eq, kind, lookahead, text_eq,
        numeral.1, if_true, if_false]
      exact accepts.raises passed noCall follows fuel _

/-- How lexemes are accepted, level by level. -/
def LevelAccepts (context : ParserContext) : Level → List Lexeme → Prop
  | .primary => Accepts (parsePrimary context) fun _ => True
  | .power => Accepts (parsePow context) EndsOperand
  | .unary => Accepts (parseUnary context) EndsOperand
  | .product => ReachesLoop context 2 EndsOperand
  | .sum => ReachesLoop context 1 EndsProduct

/-- Derivable lexemes are accepted at their level. -/
theorem levelAccepts
    {level : Level}
    {expression : Expression}
    (reads : Reads .negativeLiterals level lexemes expression) :
    LevelAccepts context level lexemes := by
  induction reads with
  | number numeral =>
      exact accepts_number numeral
  | var =>
      exact accepts_var
  | @call _ arguments all inductionHypothesis =>
      refine accepts_call ?_ ?_
      · intro argument member
        obtain ⟨whole, wholeMember, rfl⟩ := List.mem_map.mp member
        exact inductionHypothesis whole wholeMember
      · intro argument member
        obtain ⟨whole, wholeMember, rfl⟩ := List.mem_map.mp member
        have reads := all whole wholeMember
        refine ⟨reads.nonempty, fun isParen => ?_⟩
        have starts := reads.starts
        rw [isParen] at starts
        simp [startsPrimary] at starts
  | parenthesized _ inductionHypothesis =>
      exact inductionHypothesis.parenthesized
  | base _ inductionHypothesis =>
      exact inductionHypothesis.base
  | caret _ exponent baseHypothesis exponentHypothesis =>
      exact baseHypothesis.caret exponentHypothesis exponent.nonempty
  | unsigned power inductionHypothesis =>
      exact inductionHypothesis.unsigned power.nonempty power.starts_power
  | plus operand inductionHypothesis =>
      exact inductionHypothesis.plus operand.nonempty
  | @minus lexemes _ operand notRaised inductionHypothesis =>
      by_cases isNumber : nextKind lexemes = .number
      · obtain ⟨text, numeral, lexemes_eq, -⟩ :=
          operand.unary_numeral isNumber (notRaised rfl)
        subst lexemes_eq
        exact accepts_literal numeral
      · exact inductionHypothesis.minus operand.nonempty isNumber
  | raisedLiteral _ numeral exponent inductionHypothesis =>
      exact inductionHypothesis.raisedLiteral numeral exponent.nonempty
  | factor _ inductionHypothesis =>
      exact inductionHypothesis.factor
  | times _ right leftHypothesis rightHypothesis =>
      exact leftHypothesis.operator rfl ⟨TokKind.noConfusion, TokKind.noConfusion⟩
        (fun low stops => stops.noProduct low (Or.inl (Or.inl rfl)))
        rightHypothesis.operand right.nonempty
  | divide _ right leftHypothesis rightHypothesis =>
      exact leftHypothesis.operator rfl ⟨TokKind.noConfusion, TokKind.noConfusion⟩
        (fun low stops => stops.noProduct low (Or.inl (Or.inr rfl)))
        rightHypothesis.operand right.nonempty
  | adjacent _ right noCall leftHypothesis rightHypothesis =>
      have operand := rightHypothesis.unsigned right.nonempty right.starts_power
      exact leftHypothesis.adjacent operand.operand right.starts_power
        right.nonempty noCall
  | term _ inductionHypothesis =>
      intro fuel minPrec state rest final low lexemes_eq noCall follows loop
      exact inductionHypothesis fuel minPrec state rest final
        (low.trans (by decide)) lexemes_eq noCall follows.1 loop
  | add _ right leftHypothesis rightHypothesis =>
      exact leftHypothesis.operator rfl
        ⟨TokKind.noConfusion, TokKind.noConfusion, by simp [Multiplies, startsPrimary]⟩
        (fun low stops => (stops.noSum low).1 rfl)
        rightHypothesis.term right.nonempty
  | subtract _ right leftHypothesis rightHypothesis =>
      exact leftHypothesis.operator rfl
        ⟨TokKind.noConfusion, TokKind.noConfusion, by simp [Multiplies, startsPrimary]⟩
        (fun low stops => (stops.noSum low).2 rfl)
        rightHypothesis.term right.nonempty

/-- A text that the grammar derives, in one of its dialects. -/
def SyntacticallyValid (text : Text) : Prop :=
  ∃ dialect lexemes expression,
    HasLexemes text lexemes ∧ Reads dialect .sum lexemes expression

/-- On valid texts the parser throws no syntax error. -/
theorem parse_accepts
    {text : Text}
    (valid : SyntacticallyValid text)
    (store : AtomStore)
    (table : Snapshot) :
    Outcome.OnlyThrows (fun error => ∀ message, error ≠ .invalidArgument message)
      (parse context text store table) := by
  obtain ⟨dialect, lexemes, expression, ⟨tokens, tokenized, tokens_eq⟩, reads⟩ := valid
  obtain ⟨other, reads⟩ := reads.negativeLiterals
  have length_eq : tokens.length = lexemes.length + 1 := by
    have same := congrArg List.length tokens_eq
    simpa using same
  have nonempty : tokens.length ≠ 1 := by
    rw [length_eq]
    intro isOne
    exact reads.nonempty (List.length_eq_zero_iff.mp (Nat.succ.inj isOne))
  have whole : ReachesLoop context 1 EndsProduct lexemes := levelAccepts reads
  have passes :
      Passes []
        (parseAll context (parserFuel tokens.length)
          { tokens := tokens, store := store, table := table }) := by
    have start :
        ParserState.lexemes ⟨tokens, store, table⟩ = lexemes ++ [(.finish, [])] :=
      tokens_eq
    refine (whole.whole _ _ [(.finish, [])] start (fun _ => TokKind.noConfusion)
      (Or.inr (Or.inr rfl))).bind ?_
    intro result left
    exact .expect (by rw [left]; rfl) (passes_ok (by simp [left]))
  unfold parse
  rw [tokenized, Outcome.ok_bind, if_neg nonempty]
  exact passes.accepts

end Parser

end AtomCore
