import Stocas.Atom.NormalizeStore
import Stocas.Atom.Parser
import Stocas.Atom.PrintedLexemes

namespace AtomCore

open SymbolTable (Snapshot Symbol Text)
open NumericaCore (bigIntOfString)

/-!
# Parsing what the printer writes

`Parses` says that a parsing function turns some lexemes into the slot of a
tree, whatever admissible lexeme follows them.  One lemma for each shape of the
grammar builds such facts for longer lexeme lists from those for their parts.
-/

/-- The kind of the next lexeme. -/
def nextKind (lexemes : List Lexeme) : TokKind :=
  (lexemes.headD (.finish, [])).1

namespace ParserState

/-- The tokens that are left, without their positions. -/
def lexemes (state : ParserState) : List Lexeme :=
  state.tokens.map Token.lexeme

theorem lexeme_peek (state : ParserState) :
    state.peek.lexeme = state.lexemes.headD (.finish, []) := by
  rcases state with ⟨tokens, store, table⟩
  cases tokens <;> rfl

@[simp] theorem kind_peek (state : ParserState) :
    state.peek.kind = nextKind state.lexemes :=
  congrArg Prod.fst state.lexeme_peek

@[simp] theorem text_peek (state : ParserState) :
    state.peek.text = (state.lexemes.headD (.finish, [])).2 :=
  congrArg Prod.snd state.lexeme_peek

@[simp] theorem lexemes_advance (state : ParserState) :
    state.advance.lexemes = state.lexemes.tail := by
  rcases state with ⟨tokens, store, table⟩
  cases tokens <;> rfl

@[simp] theorem store_advance (state : ParserState) :
    state.advance.store = state.store :=
  rfl

@[simp] theorem table_advance (state : ParserState) :
    state.advance.table = state.table :=
  rfl

/-- The lookahead is the next token after an advance. -/
theorem lookahead_eq (state : ParserState) :
    state.lookahead = state.advance.peek :=
  rfl

@[simp] theorem lexemes_build
    (state : ParserState)
    (result : Nat × AtomStore) :
    (state.build result).2.lexemes = state.lexemes :=
  rfl

end ParserState

section Printed

variable [StringHash]

/-- A state from which the parser may go on. -/
structure Ready (table : Snapshot) (state : ParserState) : Prop where
  invariant : state.store.Invariant
  table_eq : state.table = table

/-- Passing a token changes neither the store nor the table. -/
theorem Ready.advance
    {table : Snapshot}
    {state : ParserState}
    (ready : Ready table state) :
    Ready table state.advance :=
  ⟨ready.invariant, ready.table_eq⟩

/-- The parser has passed some lexemes and built a slot with this tree. -/
structure ParsedAs
    (state : ParserState)
    (rest : List Lexeme)
    (result : Nat × ParserState)
    (tree : AtomTree) : Prop where
  built : AtomStore.Built state.store (result.1, result.2.store) tree
  lexemes_eq : result.2.lexemes = rest
  table_eq : result.2.table = state.table

/--
A parsing function that takes fuel passes exactly these lexemes, builds this
tree from them, and asks for five units of fuel a lexeme and some more.
-/
def Parses
    (table : Snapshot)
    (parser : Nat → ParserState → Parsed)
    (extra : Nat)
    (follows : TokKind → Prop)
    (lexemes : List Lexeme)
    (tree : AtomTree) : Prop :=
  ∀ (fuel : Nat) (state : ParserState) (rest : List Lexeme),
    Ready table state →
    state.lexemes = lexemes ++ rest →
    follows (nextKind rest) →
    5 * lexemes.length + extra ≤ fuel + 5 →
    ∃ result,
      parser fuel state = .ok result ∧ ParsedAs state rest result tree

/-- After a name, an opening parenthesis would make a call. -/
def EndsPrimary (kind : TokKind) : Prop :=
  kind ≠ .lParen

/-- After a factor, a caret would raise it to a power. -/
def EndsFactor (kind : TokKind) : Prop :=
  kind ≠ .lParen ∧ kind ≠ .caret

/-- What may follow a term of a sum. -/
def EndsTerm (kind : TokKind) : Prop :=
  kind = .plus ∨ kind = .rParen ∨ kind = .comma ∨ kind = .finish

/-- What may follow a whole expression. -/
def EndsExpression (kind : TokKind) : Prop :=
  kind = .rParen ∨ kind = .comma ∨ kind = .finish

namespace ParsedAs

variable {state : ParserState} {rest : List Lexeme} {result : Nat × ParserState}
  {tree : AtomTree}

/-- After a parse the parser may go on. -/
theorem ready
    {table : Snapshot}
    (parsed : ParsedAs state rest result tree)
    (ready : Ready table state) :
    Ready table result.2 :=
  ⟨parsed.built.invariant, parsed.table_eq.trans ready.table_eq⟩

/-- What is parsed after passing a token counts from before it. -/
theorem of_advance
    (parsed : ParsedAs state.advance rest result tree) :
    ParsedAs state rest result tree :=
  ⟨parsed.built, parsed.lexemes_eq, parsed.table_eq⟩

end ParsedAs

/-- A builder call of the parser delivers what the builder delivers. -/
theorem parsedAs_build
    {before : ParserState}
    (state : ParserState)
    (growth : AtomStore.Extends before.store state.store)
    (sameTable : state.table = before.table)
    {result : Nat × AtomStore}
    {tree : AtomTree}
    (built : AtomStore.Built state.store result tree) :
    ParsedAs before state.lexemes (state.build result) tree :=
  ⟨built.trans growth, rfl, sameTable⟩

variable {context : ParserContext} {table : Snapshot}

/-- `parse_primary` on these lexemes, which start a primary. -/
structure PrimaryParses
    (context : ParserContext)
    (table : Snapshot)
    (lexemes : List Lexeme)
    (tree : AtomTree) : Prop where
  starts : startsPrimary (nextKind lexemes) = true
  nonempty : lexemes ≠ []
  parses : Parses table (parsePrimary context) 3 EndsPrimary lexemes tree

/-- `parse_unary` on these lexemes. -/
def UnaryParses
    (context : ParserContext)
    (table : Snapshot) :
    List Lexeme → AtomTree → Prop :=
  Parses table (parseUnary context) 5 EndsFactor

/-- A number literal without sign. -/
theorem primary_number
    (value : ℕ) :
    PrimaryParses context table [(.number, Nat.toDigits 10 value)]
      (.num value) where
  starts := rfl
  nonempty := by simp
  parses := by
    intro fuel state rest ready lexemes_eq _ enough
    cases fuel with
    | zero =>
        simp at enough
    | succ fuel =>
        have kind : state.peek.kind = .number := by
          simp [lexemes_eq, nextKind]
        have text : state.peek.text = Nat.toDigits 10 value := by
          simp [lexemes_eq]
        have valueText : (bigIntOfString (Nat.toDigits 10 value) : ℚ) = value := by
          rw [NumericaCore.bigIntOfString_toDigits, Int.cast_natCast]
        have number :
            AtomStore.Built state.advance.store
              (state.advance.store.num value) (.num value) :=
          AtomStore.num_built ready.invariant (value : ℚ)
        have parsed :=
          parsedAs_build state.advance (AtomStore.Extends.refl state.store) rfl number
        refine ⟨state.advance.build (state.advance.store.num value), ?_, ?_⟩
        · simp only [parsePrimary, kind, text, Nat.toDigits_ne_nil, if_false,
            numeral, valueText]
        · simpa [lexemes_eq] using parsed

omit [StringHash] in
/-- The first lexeme of a list that goes on. -/
theorem nextKind_append
    {lexemes : List Lexeme}
    (nonempty : lexemes ≠ [])
    (rest : List Lexeme) :
    nextKind (lexemes ++ rest) = nextKind lexemes := by
  cases lexemes with
  | nil =>
      exact absurd rfl nonempty
  | cons first others =>
      rfl

/-- The table answers a plain name with its symbol and stays as it is. -/
theorem getSymbol_plain
    (consistent : table.Consistent)
    {symbol : Symbol}
    {name : Text}
    (plain : PlainSymbol table context.namespaceName symbol name)
    {state : ParserState}
    (ready : Ready table state) :
    SymbolTable.getSymbol state.table context.namespaceName name [] context.location =
      .ok (symbol, state.table) := by
  obtain ⟨-, entry, found, named, noAttributes⟩ := plain
  rw [ready.table_eq]
  exact SymbolTable.getSymbol_registered consistent found named noAttributes context.location

/-- A variable with a plain name. -/
theorem primary_variable
    (consistent : table.Consistent)
    {symbol : Symbol}
    {name : Text}
    (plain : PlainSymbol table context.namespaceName symbol name) :
    PrimaryParses context table [(.ident, name)] (.var symbol) where
  starts := rfl
  nonempty := by simp
  parses := by
    intro fuel state rest ready lexemes_eq follows enough
    cases fuel with
    | zero =>
        simp at enough
    | succ fuel =>
        have kind : state.peek.kind = .ident := by
          simp [lexemes_eq, nextKind]
        have text : state.peek.text = name := by
          simp [lexemes_eq]
        have resolved := getSymbol_plain consistent plain ready
        have noCall : state.advance.peek.kind ≠ .lParen := by
          simpa [lexemes_eq, EndsPrimary] using follows
        have built :
            AtomStore.Built state.advance.store
              (state.advance.store.var symbol) (.var symbol) :=
          AtomStore.var_built ready.invariant symbol
        have parsed :=
          parsedAs_build state.advance (AtomStore.Extends.refl state.store) rfl built
        refine ⟨state.advance.build (state.advance.store.var symbol), ?_, ?_⟩
        · simp only [parsePrimary, kind, text, resolved]
          exact if_neg noCall
        · simpa [lexemes_eq] using parsed

/-- What starts a primary is no sign. -/
theorem PrimaryParses.noSign
    {lexemes rest : List Lexeme}
    {tree : AtomTree}
    (primary : PrimaryParses context table lexemes tree)
    {state : ParserState}
    (lexemes_eq : state.lexemes = lexemes ++ rest) :
    state.peek.kind ≠ .minus ∧ state.peek.kind ≠ .plus := by
  have starts : startsPrimary state.peek.kind = true := by
    simpa [lexemes_eq, nextKind_append primary.nonempty] using primary.starts
  constructor
  · intro isMinus
    rw [isMinus] at starts
    cases starts
  · intro isPlus
    rw [isPlus] at starts
    cases starts

/-- A primary that no caret follows is a whole factor. -/
theorem unary_of_primary
    {lexemes : List Lexeme}
    {tree : AtomTree}
    (primary : PrimaryParses context table lexemes tree) :
    UnaryParses context table lexemes tree := by
  intro fuel state rest ready lexemes_eq follows enough
  have positive := List.length_pos_iff.mpr primary.nonempty
  obtain ⟨notMinus, notPlus⟩ := primary.noSign lexemes_eq
  match fuel with
  | 0 | 1 =>
      omega
  | fuel + 2 =>
      obtain ⟨result, parses, parsed⟩ :=
        primary.parses fuel state rest ready lexemes_eq follows.1 (by omega)
      have noCaret : result.2.peek.kind ≠ .caret := by
        simpa [parsed.lexemes_eq] using follows.2
      refine ⟨result, ?_, parsed⟩
      simp only [parseUnary, notMinus, notPlus, if_false, parsePow, parses,
        Outcome.ok_bind]
      exact if_neg noCaret

/-- `parse_unary` on the base of a power, alone and with an exponent. -/
structure BaseParses
    (context : ParserContext)
    (table : Snapshot)
    (lexemes : List Lexeme)
    (tree : AtomTree) : Prop where
  alone : UnaryParses context table lexemes tree
  raised
    {exponentLexemes : List Lexeme}
    {exponent : AtomTree} :
    UnaryParses context table exponentLexemes exponent →
    UnaryParses context table (lexemes ++ (.caret, []) :: exponentLexemes)
      (.pow tree exponent)

/-- The caret and the exponent after a base that has been passed. -/
theorem parsedAs_pow
    {state : ParserState}
    {base exponent : Nat × ParserState}
    {baseTree exponentTree : AtomTree}
    {rest others : List Lexeme}
    (baseParsed : ParsedAs state others base baseTree)
    (exponentParsed :
      ParsedAs base.2.advance rest exponent exponentTree) :
    ParsedAs state rest
      (exponent.2.build (exponent.2.store.pow base.1 exponent.1))
      (.pow baseTree exponentTree) := by
  have baseInvariant := baseParsed.built.invariant
  have exponentBuilt :
      AtomStore.Built base.2.store (exponent.1, exponent.2.store) exponentTree :=
    exponentParsed.built
  have baseTree_eq := exponentBuilt.tree_old baseInvariant baseParsed.built.inside
  have power :=
    AtomStore.pow_built exponentBuilt.invariant
      (exponentBuilt.growth.inside baseParsed.built.inside) exponentBuilt.inside
  rw [exponentBuilt.tree_eq, baseTree_eq, baseParsed.built.tree_eq] at power
  have parsed :=
    parsedAs_build exponent.2
      (baseParsed.built.growth.trans exponentBuilt.growth)
      (exponentParsed.table_eq.trans baseParsed.table_eq) power
  rwa [exponentParsed.lexemes_eq] at parsed

/-- A primary may be the base of a power. -/
theorem base_of_primary
    {lexemes : List Lexeme}
    {tree : AtomTree}
    (primary : PrimaryParses context table lexemes tree) :
    BaseParses context table lexemes tree where
  alone := unary_of_primary primary
  raised := by
    intro exponentLexemes exponent exponentParses fuel state rest ready
      lexemes_eq follows enough
    have positive := List.length_pos_iff.mpr primary.nonempty
    simp only [List.length_append, List.length_cons] at enough
    rw [List.append_assoc] at lexemes_eq
    obtain ⟨notMinus, notPlus⟩ := primary.noSign lexemes_eq
    match fuel with
    | 0 | 1 =>
        omega
    | fuel + 2 =>
        obtain ⟨base, baseParse, baseParsed⟩ :=
          primary.parses fuel state _ ready lexemes_eq nofun (by omega)
        have caret : base.2.peek.kind = .caret := by
          simp [baseParsed.lexemes_eq, nextKind]
        obtain ⟨result, parses, parsed⟩ :=
          exponentParses fuel base.2.advance rest (baseParsed.ready ready).advance
            (by simp [baseParsed.lexemes_eq]) follows (by omega)
        refine ⟨_, ?_, parsedAs_pow baseParsed parsed⟩
        simp only [parseUnary, notMinus, notPlus, if_false, parsePow, baseParse,
          parses, caret, Outcome.ok_bind, if_true]

/-- A negative number literal, by the special path of `parse_unary`. -/
theorem base_negative
    (value : ℕ) :
    BaseParses context table
      [(.minus, []), (.number, Nat.toDigits 10 value)] (.num (-value)) := by
  have literal :
      ∀ (state : ParserState) (rest : List Lexeme),
        Ready table state →
        state.lexemes =
          [(TokKind.minus, []), (TokKind.number, Nat.toDigits 10 value)] ++ rest →
        ∃ base,
          ParsedAs state rest base (.num (-value)) ∧
            ∀ fuel,
              parseUnary context (fuel + 1) state =
                if base.2.peek.kind = .caret then do
                  let exponent ← parseUnary context fuel base.2.advance
                  .ok (exponent.2.build (exponent.2.store.pow base.1 exponent.1))
                else
                  .ok base := by
    intro state rest ready lexemes_eq
    have minus : state.peek.kind = .minus := by
      simp [lexemes_eq, nextKind]
    have number : state.lookahead.kind = .number := by
      simp [ParserState.lookahead_eq, lexemes_eq, nextKind]
    have text : state.lookahead.text = Nat.toDigits 10 value := by
      simp [ParserState.lookahead_eq, lexemes_eq]
    have valueText :
        (bigIntOfString ('-' :: Nat.toDigits 10 value) : ℚ) = -value := by
      rw [NumericaCore.bigIntOfString_neg_toDigits, Int.cast_neg,
        Int.cast_natCast]
    have built :
        AtomStore.Built state.advance.advance.store
          (state.advance.advance.store.num (-value)) (.num (-value)) :=
      AtomStore.num_built ready.invariant (-value : ℚ)
    have parsed :=
      parsedAs_build state.advance.advance (AtomStore.Extends.refl state.store)
        rfl built
    have passed : state.advance.advance.lexemes = rest := by
      simp [lexemes_eq]
    rw [passed] at parsed
    refine ⟨_, parsed, ?_⟩
    intro fuel
    simp only [parseUnary, minus, number, text, Nat.toDigits_ne_nil, if_true,
      if_false, numeral, valueText]
  constructor
  · intro fuel state rest ready lexemes_eq follows enough
    obtain ⟨base, parsed, parses⟩ := literal state rest ready lexemes_eq
    cases fuel with
    | zero =>
        simp at enough
    | succ fuel =>
        have noCaret : base.2.peek.kind ≠ .caret := by
          simpa [parsed.lexemes_eq] using follows.2
        refine ⟨base, ?_, parsed⟩
        rw [parses, if_neg noCaret]
  · intro exponentLexemes exponent exponentParses fuel state rest ready
      lexemes_eq follows enough
    obtain ⟨base, baseParsed, parses⟩ :=
      literal state _ ready (by rw [lexemes_eq, List.append_assoc])
    simp only [List.length_append, List.length_cons] at enough
    cases fuel with
    | zero =>
        omega
    | succ fuel =>
        have caret : base.2.peek.kind = .caret := by
          simp [baseParsed.lexemes_eq, nextKind]
        obtain ⟨result, exponentParse, parsed⟩ :=
          exponentParses fuel base.2.advance rest (baseParsed.ready ready).advance
            (by simp [baseParsed.lexemes_eq]) follows (by omega)
        refine ⟨_, ?_, parsedAs_pow baseParsed parsed⟩
        rw [parses, if_pos caret, exponentParse, Outcome.ok_bind]

/-- What starts a printed operand. -/
def StartsOperand (kind : TokKind) : Prop :=
  kind = .minus ∨ startsPrimary kind = true

/-- `parse_expression` from the loosest level on these lexemes. -/
structure ExpressionParses
    (context : ParserContext)
    (table : Snapshot)
    (lexemes : List Lexeme)
    (tree : AtomTree) : Prop where
  starts : StartsOperand (nextKind lexemes)
  parses :
    Parses table (fun fuel => parseExpression context fuel 1) 7 EndsExpression
      lexemes tree

omit [StringHash] in
/-- What starts an operand is not empty. -/
theorem StartsOperand.nonempty
    {lexemes : List Lexeme}
    (starts : StartsOperand (nextKind lexemes)) :
    lexemes ≠ [] := by
  intro empty
  subst lexemes
  rcases starts with isMinus | isPrimary
  · cases isMinus
  · cases isPrimary

/-- An expression between parentheses. -/
theorem primary_parenthesized
    {lexemes : List Lexeme}
    {tree : AtomTree}
    (expression : ExpressionParses context table lexemes tree) :
    PrimaryParses context table (parenthesized lexemes) tree where
  starts := rfl
  nonempty := by simp [parenthesized]
  parses := by
    intro fuel state rest ready lexemes_eq _ enough
    simp only [parenthesized, List.length_cons, List.length_append,
      List.length_nil] at enough
    cases fuel with
    | zero =>
        omega
    | succ fuel =>
        have opening : state.peek.kind = .lParen := by
          simp [lexemes_eq, parenthesized, nextKind]
        obtain ⟨inner, parses, parsed⟩ :=
          expression.parses fuel state.advance ((.rParen, []) :: rest)
            ready.advance (by simp [lexemes_eq, parenthesized]) (Or.inl rfl)
            (by omega)
        have closing : inner.2.peek.kind = .rParen := by
          simp [parsed.lexemes_eq, nextKind]
        refine ⟨(inner.1, inner.2.advance), ?_, ?_⟩
        · simp only [parsePrimary, opening, parses, Outcome.ok_bind,
            ParserState.expect, closing, if_true]
        · exact ⟨parsed.built, by simp [parsed.lexemes_eq], parsed.table_eq⟩

/-- The parser has passed some lexemes and built slots with these trees. -/
structure ParsedAllAs
    (state : ParserState)
    (rest : List Lexeme)
    (result : List Nat × ParserState)
    (trees : List AtomTree) : Prop where
  built : AtomStore.BuiltAll state.store (result.1, result.2.store) trees
  lexemes_eq : result.2.lexemes = rest
  table_eq : result.2.table = state.table

/-- One argument more, parsed before the others. -/
theorem ParsedAs.cons
    {state : ParserState}
    {first : Nat × ParserState}
    {tree : AtomTree}
    {middle rest : List Lexeme}
    (parsed : ParsedAs state middle first tree)
    {others : List Nat × ParserState}
    {trees : List AtomTree}
    (later : ParsedAllAs first.2 rest others trees) :
    ParsedAllAs state rest (first.1 :: others.1, others.2) (tree :: trees) :=
  ⟨parsed.built.cons later.built, later.lexemes_eq,
    later.table_eq.trans parsed.table_eq⟩

/-- Arguments after a comma, up to the closing parenthesis. -/
theorem parseMoreArguments_parses
    {arguments : List (List Lexeme)}
    {trees : List AtomTree}
    (all : List.Forall₂ (ExpressionParses context table) arguments trees) :
    ∀ (fuel : Nat) (state : ParserState) (rest : List Lexeme),
      Ready table state →
      state.lexemes =
        (arguments.flatMap fun lexemes => (.comma, []) :: lexemes) ++
          (.rParen, []) :: rest →
      5 * (arguments.flatMap fun lexemes =>
          (TokKind.comma, ([] : Text)) :: lexemes).length + 6 ≤ fuel + 5 →
      ∃ result,
        parseMoreArguments context fuel state = .ok result ∧
          ParsedAllAs state ((.rParen, []) :: rest) result trees := by
  induction all with
  | nil =>
      intro fuel state rest ready lexemes_eq enough
      cases fuel with
      | zero =>
          simp at enough
      | succ fuel =>
          have closing : state.peek.kind ≠ .comma := by
            simp [lexemes_eq, nextKind]
          refine ⟨([], state), if_neg closing, ?_, lexemes_eq, rfl⟩
          exact ⟨ready.invariant, AtomStore.Extends.refl _, nofun, rfl⟩
  | @cons argument tree others trees first _ inductionHypothesis =>
      intro fuel state rest ready lexemes_eq enough
      simp only [List.flatMap_cons, List.cons_append, List.length_cons,
        List.length_append, List.append_assoc] at lexemes_eq enough
      cases fuel with
      | zero =>
          omega
      | succ fuel =>
          have comma : state.peek.kind = .comma := by
            simp [lexemes_eq, nextKind]
          have follows :
              EndsExpression
                (nextKind
                  ((others.flatMap fun lexemes => (.comma, []) :: lexemes) ++
                    (.rParen, []) :: rest)) := by
            cases others with
            | nil =>
                exact Or.inl rfl
            | cons =>
                exact Or.inr (Or.inl rfl)
          obtain ⟨one, parses, parsed⟩ :=
            first.parses fuel state.advance _ ready.advance
              (by simp [lexemes_eq]) follows (by omega)
          obtain ⟨result, moreParse, later⟩ :=
            inductionHypothesis fuel one.2 rest (parsed.ready ready.advance)
              parsed.lexemes_eq (by omega)
          refine ⟨(one.1 :: result.1, result.2), ?_, ?_⟩
          · simp only [parseMoreArguments, comma, if_true, parses,
              Outcome.ok_bind, moreParse]
          · exact parsed.of_advance.cons later

/-- All arguments of a call. -/
theorem parseArguments_parses
    {arguments : List (List Lexeme)}
    {trees : List AtomTree}
    (all : List.Forall₂ (ExpressionParses context table) arguments trees)
    (fuel : Nat)
    {state : ParserState}
    (rest : List Lexeme)
    (ready : Ready table state)
    (lexemes_eq :
      state.lexemes = joinLexemes .comma arguments ++ (.rParen, []) :: rest)
    (enough : 5 * (joinLexemes .comma arguments).length + 8 ≤ fuel + 5) :
    ∃ result,
      parseArguments context fuel state = .ok result ∧
        ParsedAllAs state ((.rParen, []) :: rest) result trees := by
  cases fuel with
  | zero =>
      omega
  | succ fuel =>
      cases all with
      | nil =>
          have closing : state.peek.kind = .rParen := by
            simp [lexemes_eq, joinLexemes, nextKind]
          refine ⟨([], state), if_pos closing, ?_, lexemes_eq, rfl⟩
          exact ⟨ready.invariant, AtomStore.Extends.refl _, nofun, rfl⟩
      | @cons argument tree others trees first later =>
          simp only [joinLexemes, List.length_append,
            List.append_assoc] at lexemes_eq enough
          have notClosing : state.peek.kind ≠ .rParen := by
            have starts := first.starts
            rw [← nextKind_append first.starts.nonempty, ← lexemes_eq,
              ← ParserState.kind_peek] at starts
            intro closing
            rw [closing] at starts
            rcases starts with isMinus | isPrimary
            · cases isMinus
            · cases isPrimary
          have follows :
              EndsExpression
                (nextKind
                  ((others.flatMap fun lexemes => (.comma, []) :: lexemes) ++
                    (.rParen, []) :: rest)) := by
            cases others with
            | nil =>
                exact Or.inl rfl
            | cons =>
                exact Or.inr (Or.inl rfl)
          obtain ⟨one, parses, parsed⟩ :=
            first.parses fuel state _ ready lexemes_eq follows (by omega)
          obtain ⟨result, moreParse, moreParsed⟩ :=
            parseMoreArguments_parses later fuel one.2 rest
              (parsed.ready ready) parsed.lexemes_eq (by omega)
          refine ⟨(one.1 :: result.1, result.2), ?_, parsed.cons moreParsed⟩
          simp only [parseArguments, notClosing, if_false, parses,
            Outcome.ok_bind, moreParse]

/-- A call of a function with a plain name. -/
theorem primary_call
    (consistent : table.Consistent)
    {head : Symbol}
    {name : Text}
    (plain : PlainSymbol table context.namespaceName head name)
    {arguments : List (List Lexeme)}
    {trees : List AtomTree}
    (all : List.Forall₂ (ExpressionParses context table) arguments trees) :
    PrimaryParses context table
      ((.ident, name) :: parenthesized (joinLexemes .comma arguments))
      (.func head trees) where
  starts := rfl
  nonempty := by simp
  parses := by
    intro fuel state rest ready lexemes_eq _ enough
    simp only [parenthesized, List.length_cons, List.length_append,
      List.length_nil] at enough
    cases fuel with
    | zero =>
        omega
    | succ fuel =>
        have kind : state.peek.kind = .ident := by
          simp [lexemes_eq, nextKind]
        have text : state.peek.text = name := by
          simp [lexemes_eq]
        have resolved := getSymbol_plain consistent plain ready
        have opening : state.advance.peek.kind = .lParen := by
          simp [lexemes_eq, parenthesized, nextKind]
        obtain ⟨result, parses, parsed⟩ :=
          parseArguments_parses all fuel rest ready.advance.advance
            (by simp [lexemes_eq, parenthesized]) (by omega)
        have closing : result.2.peek.kind = .rParen := by
          simp [parsed.lexemes_eq, nextKind]
        have built :=
          AtomStore.func_built parsed.built.invariant head parsed.built.inside
        rw [parsed.built.trees_eq] at built
        have called :=
          parsedAs_build result.2.advance parsed.built.growth parsed.table_eq
            built
        refine ⟨result.2.advance.build
          (result.2.advance.store.func head result.1), ?_, ?_⟩
        · simp only [parsePrimary, kind, text, resolved]
          change
            (if state.advance.peek.kind = .lParen then _ else _) = _
          rw [if_pos opening]
          change
            (parseArguments context fuel state.advance.advance >>= _) = _
          rw [parses, Outcome.ok_bind]
          simp only [ParserState.expect, closing, if_true, Outcome.ok_bind]
        · have passed : result.2.advance.lexemes = rest := by
            simp [parsed.lexemes_eq]
          rw [passed] at called
          exact called.of_advance.of_advance

end Printed

end AtomCore
