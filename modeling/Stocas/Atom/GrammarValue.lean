import Stocas.Atom.GrammarReading
import Stocas.Atom.Parsed

namespace AtomCore

open SymbolTable (Snapshot Symbol Text)
open NumericaCore (bigIntOfString)

/-!
# The value of what is parsed

Every derivation of accepted lexemes has the value of the atom that the parser
builds from them, so the derivations agree with each other.  The induction
follows the derivation, and takes the run of the parser apart beside it.
-/

/-- The symbol that a name has in a table. -/
def symbolOf (table : Snapshot) (namespaceName name : Text) : Symbol where
  id :=
    (table.indexByQualifiedName.lookup
      (SymbolTable.qualify namespaceName name)).getD 0

/-- A registered name has its symbol. -/
theorem symbolOf_plain
    {table : Snapshot}
    (consistent : table.Consistent)
    {namespaceName name : Text}
    {symbol : Symbol}
    (plain : PlainSymbol table namespaceName symbol name) :
    symbolOf table namespaceName name = symbol := by
  obtain ⟨-, entry, found, named, -⟩ := plain
  have indexed := (consistent _ _).mpr ⟨entry, found, named⟩
  rw [symbolOf, indexed, Option.getD_some]

variable {K : Type*} [Field K] {meaning : Interpretation K}

/--
The tree has the value of the expression, under the names of this table and of
every later one.
-/
def Denotes
    (meaning : Interpretation K)
    (table : Snapshot)
    (namespaceName : Text)
    (tree : AtomTree)
    (expression : Expression) : Prop :=
  ∀ later : Snapshot,
    later.Consistent →
    table.entries <+: later.entries →
    tree.eval meaning = expression.value meaning (symbolOf later namespaceName)

namespace Denotes

variable {table : Snapshot} {namespaceName : Text}
  {first second : AtomTree} {left right : Expression}

/-- Registering names changes no value. -/
theorem registered
    {later : Snapshot}
    (denotes : Denotes meaning table namespaceName first left)
    (registered : table.entries <+: later.entries) :
    Denotes meaning later namespaceName first left :=
  fun newest consistent newer =>
    denotes newest consistent (registered.trans newer)

/-- Expressions with the same values are denoted by the same trees. -/
theorem congr
    (denotes : Denotes meaning table namespaceName first left)
    (same :
      ∀ symbols : Text → Symbol,
        left.value meaning symbols = right.value meaning symbols) :
    Denotes meaning table namespaceName first right := by
  intro later consistent registered
  rw [denotes later consistent registered, same]

theorem number
    (value : ℤ) :
    Denotes meaning table namespaceName (.num value) (.number value) := by
  intro later _ _
  rw [AtomTree.eval_integer, Expression.value]

theorem var
    {symbol : Symbol}
    {name : Text}
    (plain : PlainSymbol table namespaceName symbol name) :
    Denotes meaning table namespaceName (.var symbol) (.var name) := by
  intro later consistent registered
  rw [AtomTree.eval, Expression.value,
    symbolOf_plain consistent (plain.registered registered)]

theorem call
    {symbol : Symbol}
    {name : Text}
    (plain : PlainSymbol table namespaceName symbol name)
    {trees : List AtomTree}
    {arguments : List Expression}
    (all : List.Forall₂ (Denotes meaning table namespaceName) trees arguments) :
    Denotes meaning table namespaceName (.func symbol trees)
      (.call name arguments) := by
  intro later consistent registered
  have sameValues :
      AtomTree.evalAll meaning trees =
        Expression.valueAll meaning (symbolOf later namespaceName) arguments := by
    induction all with
    | nil =>
        rw [AtomTree.evalAll, Expression.valueAll]
    | cons first _ inductionHypothesis =>
        rw [AtomTree.evalAll, Expression.valueAll, inductionHypothesis,
          first later consistent registered]
  rw [AtomTree.eval, Expression.value, sameValues,
    symbolOf_plain consistent (plain.registered registered)]

theorem power
    (base : Denotes meaning table namespaceName first left)
    (exponent : Denotes meaning table namespaceName second right) :
    Denotes meaning table namespaceName (.pow first second)
      (.power left right) := by
  intro later consistent registered
  rw [AtomTree.eval, Expression.value, base later consistent registered,
    exponent later consistent registered]

theorem product
    (leftDenotes : Denotes meaning table namespaceName first left)
    (rightDenotes : Denotes meaning table namespaceName second right) :
    Denotes meaning table namespaceName (.mkMul [first, second])
      (.product left right) := by
  intro later consistent registered
  rw [AtomTree.eval_mkMul_eq, Expression.value, AtomTree.evalAll,
    AtomTree.evalAll, AtomTree.evalAll, leftDenotes later consistent registered,
    rightDenotes later consistent registered]
  cases left.value meaning (symbolOf later namespaceName) <;>
    cases right.value meaning (symbolOf later namespaceName) <;>
      simp

theorem sum
    (leftDenotes : Denotes meaning table namespaceName first left)
    (rightDenotes : Denotes meaning table namespaceName second right) :
    Denotes meaning table namespaceName (.mkAdd [first, second])
      (.sum left right) := by
  intro later consistent registered
  rw [AtomTree.eval_mkAdd_eq, Expression.value, AtomTree.evalAll,
    AtomTree.evalAll, AtomTree.evalAll, leftDenotes later consistent registered,
    rightDenotes later consistent registered]
  cases left.value meaning (symbolOf later namespaceName) <;>
    cases right.value meaning (symbolOf later namespaceName) <;>
      simp

/-- The product with minus one that `negate` builds. -/
theorem negation
    (denotes : Denotes meaning table namespaceName first left) :
    Denotes meaning table namespaceName (.mkMul [.num (-1), first])
      (.negation left) := by
  have whole := (number (-1)).product denotes
  rw [Int.cast_neg, Int.cast_one] at whole
  refine whole.congr fun symbols => ?_
  simp [Expression.value]

theorem difference
    (leftDenotes : Denotes meaning table namespaceName first left)
    (rightDenotes : Denotes meaning table namespaceName second right) :
    Denotes meaning table namespaceName
      (.mkAdd [first, .mkMul [.num (-1), second]])
      (.difference left right) := by
  refine (leftDenotes.sum rightDenotes.negation).congr fun symbols => ?_
  simp [Expression.value, Function.comp_def, sub_eq_add_neg]

theorem quotient
    (powers : meaning.IntegerPowers)
    (leftDenotes : Denotes meaning table namespaceName first left)
    (rightDenotes : Denotes meaning table namespaceName second right) :
    Denotes meaning table namespaceName
      (AtomTree.quotient first second)
      (.quotient left right) := by
  have inverse := rightDenotes.power (number (-1))
  rw [Int.cast_neg, Int.cast_one] at inverse
  refine (leftDenotes.product inverse).congr fun symbols => ?_
  have inverts :
      ∀ dividend divisor : K,
        (meaning.power divisor (-1)).map (fun right => dividend * right) =
          Expression.divide dividend divisor := by
    intro dividend divisor
    rw [Expression.divide]
    split_ifs with zero
    · have undefined := powers.power_zero_negative (-1) (by decide)
      rw [Int.cast_neg, Int.cast_one] at undefined
      rw [zero, undefined, Option.map_none]
    · have defined := powers.power_of_ne_zero (-1) zero
      rw [Int.cast_neg, Int.cast_one, zpow_neg_one] at defined
      rw [defined, Option.map_some, div_eq_mul_inv]
  cases value : right.value meaning symbols <;>
    simp [Expression.value, value, inverts]

/-- A negative literal is the negation of the literal. -/
theorem literal
    {text : Text}
    (numeral : IsNumeral text) :
    Denotes meaning table namespaceName (.num (bigIntOfString ('-' :: text)))
      (.negation (.number (bigIntOfString text))) := by
  have negated : bigIntOfString ('-' :: text) = -bigIntOfString text := by
    obtain ⟨nonempty, digits⟩ := numeral
    cases text with
    | nil =>
        exact absurd rfl nonempty
    | cons first rest =>
        have notSign : first ≠ '-' := by
          intro sign
          subst first
          exact absurd (digits '-' (by simp)) (by decide)
        simp [bigIntOfString, notSign]
  rw [negated]
  refine (number _).congr fun symbols => ?_
  simp [Expression.value]

end Denotes

section Parser

variable [StringHash] {context : ParserContext}

/--
The parser has passed all lexemes up to a rest, and built an atom with the value
of this expression.
-/
structure ReadAs
    (meaning : Interpretation K)
    (context : ParserContext)
    (state : ParserState)
    (rest : List Lexeme)
    (result : Nat × ParserState)
    (expression : Expression) : Prop where
  continues : Continues state result.2
  inside : result.1 < result.2.store.nodes.length
  lexemes_eq : result.2.lexemes = rest
  denotes :
    Denotes meaning result.2.table context.namespaceName
      (result.2.store.tree result.1) expression

/-- Names are identifiers where the lexemes say so. -/
theorem names_of_lexemes
    {state later : ParserState}
    (healthy : Healthy state)
    (same : later.lexemes = state.lexemes) :
    ∀ token ∈ later.tokens, token.kind = .ident → IsIdentifier token.text := by
  intro token member isIdent
  have lexemeMember : token.lexeme ∈ state.lexemes := by
    rw [← same]
    exact List.mem_map_of_mem member
  obtain ⟨other, otherMember, sameLexeme⟩ := List.mem_map.mp lexemeMember
  obtain ⟨sameKind, sameText⟩ := Prod.mk.inj sameLexeme
  rw [← sameText]
  exact healthy.names other otherMember (sameKind.trans isIdent)

/-- What a builder delivers after a state. -/
theorem ReadAs.of_parsedAs
    {state middle : ParserState}
    {result : Nat × ParserState}
    {tree : AtomTree}
    {expression : Expression}
    (continues : Continues state middle)
    (parsed : ParsedAs middle middle.lexemes result tree)
    (denotes : Denotes meaning middle.table context.namespaceName tree expression) :
    ReadAs meaning context state middle.lexemes result expression where
  continues := by
    refine ⟨⟨parsed.built.invariant, ?_, ?_⟩,
      continues.growth.trans parsed.built.growth, ?_⟩
    · rw [parsed.table_eq]
      exact continues.healthy.consistent
    · exact names_of_lexemes continues.healthy parsed.lexemes_eq
    · rw [parsed.table_eq]
      exact continues.registered
  inside := parsed.built.inside
  lexemes_eq := parsed.lexemes_eq
  denotes := by
    have tree_eq : result.2.store.tree result.1 = tree := parsed.built.tree_eq
    rwa [parsed.table_eq, tree_eq]

/-- What one builder call delivers after a state. -/
theorem ReadAs.of_built
    {state middle : ParserState}
    {result : Nat × AtomStore}
    {tree : AtomTree}
    {expression : Expression}
    (continues : Continues state middle)
    (built : AtomStore.Built middle.store result tree)
    (denotes : Denotes meaning middle.table context.namespaceName tree expression) :
    ReadAs meaning context state middle.lexemes (middle.build result) expression :=
  .of_parsedAs continues
    (parsedAs_build middle (AtomStore.Extends.refl middle.store) rfl built) denotes

/-- What is read after passing a token counts from before it. -/
theorem ReadAs.of_advance
    {state : ParserState}
    {rest : List Lexeme}
    {result : Nat × ParserState}
    {expression : Expression}
    (read : ReadAs meaning context state.advance rest result expression) :
    ReadAs meaning context state rest result expression :=
  ⟨⟨read.continues.healthy, read.continues.growth, read.continues.registered⟩,
    read.inside, read.lexemes_eq, read.denotes⟩

/-- A slot that is built stays as it is. -/
theorem parsedAs_refl
    {state : ParserState}
    (healthy : Healthy state)
    {slot : Nat}
    (inside : slot < state.store.nodes.length) :
    ParsedAs state state.lexemes (slot, state) (state.store.tree slot) :=
  ⟨⟨healthy.invariant, AtomStore.Extends.refl _, inside, rfl⟩, rfl, rfl⟩

/-- Two operands, and a builder call on them. -/
theorem ReadAs.combine
    {combine : Nat → Nat × ParserState → Nat × ParserState}
    {combineTrees : AtomTree → AtomTree → AtomTree}
    {operation : Expression → Expression → Expression}
    (combines : Combines combine combineTrees)
    (means :
      ∀ {table : Snapshot} {first second : AtomTree} {left right : Expression},
        Denotes meaning table context.namespaceName first left →
        Denotes meaning table context.namespaceName second right →
        Denotes meaning table context.namespaceName (combineTrees first second)
          (operation left right))
    {state : ParserState}
    {middle rest : List Lexeme}
    {lhs rhs : Nat × ParserState}
    {left right : Expression}
    (leftRead : ReadAs meaning context state middle lhs left)
    (rightRead : ReadAs meaning context lhs.2 rest rhs right) :
    ReadAs meaning context state rest (combine lhs.1 rhs)
      (operation left right) := by
  have healthy := rightRead.continues.healthy
  have lhsInside := rightRead.continues.growth.inside leftRead.inside
  have lhsTree :=
    rightRead.continues.growth.tree leftRead.continues.healthy.invariant.wellFormed
      healthy.invariant.wellFormed leftRead.inside
  have leftDenotes := leftRead.denotes.registered rightRead.continues.registered
  rw [← lhsTree] at leftDenotes
  have parsed :=
    combines.parsedAs (parsedAs_refl healthy lhsInside)
      (parsedAs_refl healthy rightRead.inside)
  have whole :=
    ReadAs.of_parsedAs (leftRead.continues.trans rightRead.continues) parsed
      (means leftDenotes rightRead.denotes)
  rwa [rightRead.lexemes_eq] at whole

/-- `store_.pow(base, exponent)`. -/
def powOperands (base : Nat) (exponent : Nat × ParserState) : Nat × ParserState :=
  exponent.2.build (exponent.2.store.pow base exponent.1)

theorem combines_pow :
    Combines powOperands AtomTree.pow := by
  refine combines_built (fun _ _ => rfl) (fun _ _ => rfl) ?_
  intro base exponent invariant baseInside exponentInside
  exact AtomStore.pow_built invariant baseInside exponentInside

/-- `negate` builds the product with minus one. -/
theorem parsedAs_negate
    {state : ParserState}
    {rest : List Lexeme}
    {value : Nat × ParserState}
    {tree : AtomTree}
    (parsed : ParsedAs state rest value tree) :
    ParsedAs state rest (negate value.2 value.1) (.mkMul [.num (-1), tree]) := by
  have invariant := parsed.built.invariant
  have built := AtomStore.num_built invariant (-1)
  have minusOne :=
    parsedAs_build value.2 (AtomStore.Extends.refl value.2.store) rfl built
  have operand :
      ParsedAs (value.2.build (value.2.store.num (-1))).2 value.2.lexemes
        (value.1, (value.2.build (value.2.store.num (-1))).2) tree := by
    refine ⟨⟨built.invariant, AtomStore.Extends.refl _,
      built.growth.inside parsed.built.inside, ?_⟩, rfl, rfl⟩
    exact (built.tree_old invariant parsed.built.inside).trans parsed.built.tree_eq
  have product := combines_mul.parsedAs minusOne operand
  exact ⟨product.built.trans parsed.built.growth,
    product.lexemes_eq.trans parsed.lexemes_eq,
    product.table_eq.trans parsed.table_eq⟩

theorem combines_subtract :
    Combines subtractOperands fun first second =>
      .mkAdd [first, .mkMul [.num (-1), second]] where
  parsedAs := fun lhsParsed rhsParsed =>
    combines_add.parsedAs lhsParsed (parsedAs_negate rhsParsed)

/-- On these lexemes every successful run gives the expression's value. -/
def Agrees
    (meaning : Interpretation K)
    (context : ParserContext)
    (parser : Nat → ParserState → Parsed)
    (follows : TokKind → Prop)
    (lexemes : List Lexeme)
    (expression : Expression) : Prop :=
  ∀ (fuel : Nat) (state : ParserState) (rest : List Lexeme)
    (result : Nat × ParserState),
    Healthy state →
    state.lexemes = lexemes ++ rest →
    NoCall lexemes (nextKind rest) →
    follows (nextKind rest) →
    parser fuel state = .ok result →
    ReadAs meaning context state rest result expression

/-- A run that starts with these lexemes comes by the expression's value. -/
def Leads
    (meaning : Interpretation K)
    (context : ParserContext)
    (maxPrec : Nat)
    (follows : TokKind → Prop)
    (lexemes : List Lexeme)
    (expression : Expression) : Prop :=
  ∀ (fuel minPrec : Nat) (state : ParserState) (rest : List Lexeme)
    (result : Nat × ParserState),
    minPrec ≤ maxPrec →
    Healthy state →
    state.lexemes = lexemes ++ rest →
    NoCall lexemes (nextKind rest) →
    follows (nextKind rest) →
    parseExpression context fuel minPrec state = .ok result →
    ∃ left lhs,
      parseOperators context left minPrec lhs.1 lhs.2 = .ok result ∧
        ReadAs meaning context state rest lhs expression

/-- After an operand no caret follows. -/
def EndsOperand (kind : TokKind) : Prop :=
  kind ≠ .caret

omit [StringHash] in
/-- What starts a primary is no caret. -/
theorem endsOperand_of_startsPrimary
    {kind : TokKind}
    (starts : startsPrimary kind = true) :
    EndsOperand kind := by
  intro isCaret
  rw [isCaret] at starts
  cases starts

/-- After a term of a sum no product goes on. -/
def EndsProduct (kind : TokKind) : Prop :=
  kind ≠ .caret ∧ ¬Multiplies kind

variable {lexemes : List Lexeme} {expression : Expression}

/-- `parse_expression(3)` parses an operand. -/
theorem Agrees.operand
    (agrees :
      Agrees meaning context (parseUnary context) EndsOperand lexemes expression) :
    Agrees meaning context (fun fuel => parseExpression context fuel 3) EndsOperand
      lexemes expression := by
  intro fuel state rest result healthy lexemes_eq noCall follows parsed
  cases fuel with
  | zero =>
      cases parsed
  | succ fuel =>
      simp only [parseExpression] at parsed
      obtain ⟨lhs, lhsParsed, loop⟩ := Outcome.bind_eq_ok.mp parsed
      rw [parseOperators_three loop]
      exact agrees fuel state rest lhs healthy lexemes_eq noCall follows lhsParsed

/-- Where the loop stops, what it has come by is the result. -/
theorem eq_of_stops
    {fuel minPrec : Nat}
    {lhs result : Nat × ParserState}
    (parsed : parseOperators context fuel minPrec lhs.1 lhs.2 = .ok result)
    (stops :
      ∀ (fuel : Nat) (rhs : Nat × ParserState)
        (combine : Nat → Nat × ParserState → Nat × ParserState),
        ¬Round context fuel minPrec lhs.2 rhs combine) :
    result = lhs := by
  cases fuel with
  | zero =>
      cases parsed
  | succ fuel =>
      rcases parseOperators_cases parsed with
        ⟨rhs, combine, round, -⟩ | ⟨result_eq, -⟩
      · exact absurd round (stops fuel rhs combine)
      · exact result_eq

/-- `parse_expression(2)` parses a term. -/
theorem Leads.term
    (leads : Leads meaning context 2 EndsOperand lexemes expression) :
    Agrees meaning context (fun fuel => parseExpression context fuel 2) EndsProduct
      lexemes expression := by
  intro fuel state rest result healthy lexemes_eq noCall follows parsed
  obtain ⟨left, lhs, loop, read⟩ :=
    leads fuel 2 state rest result le_rfl healthy lexemes_eq noCall follows.1 parsed
  have result_eq := eq_of_stops loop fun _ _ _ round => by
    have multiplies := round.multiplies le_rfl
    rw [read.lexemes_eq] at multiplies
    exact follows.2 multiplies
  rwa [result_eq]

/-- `parse_expression(1)` parses a whole expression. -/
theorem Leads.whole
    (leads : Leads meaning context 1 EndsProduct lexemes expression) :
    Agrees meaning context (fun fuel => parseExpression context fuel 1)
      EndsExpression lexemes expression := by
  intro fuel state rest result healthy lexemes_eq noCall follows parsed
  have ends : EndsProduct (nextKind rest) := by
    rcases follows with isEnd | isEnd | isEnd <;>
      simp [EndsProduct, Multiplies, startsPrimary, isEnd]
  obtain ⟨left, lhs, loop, read⟩ :=
    leads fuel 1 state rest result le_rfl healthy lexemes_eq noCall ends parsed
  have result_eq := eq_of_stops loop fun _ _ _ round => by
    have next := read.lexemes_eq
    cases round with
    | add isOperator | subtract isOperator | times isOperator | divide isOperator =>
        rw [next] at isOperator
        rw [isOperator] at follows
        simp [EndsExpression] at follows
    | adjacent starts =>
        rw [next] at starts
        exact ends.2 (Or.inr starts)
  rwa [result_eq]

/-- A factor is a product of one. -/
theorem Agrees.factor
    (agrees :
      Agrees meaning context (parseUnary context) EndsOperand lexemes expression) :
    Leads meaning context 2 EndsOperand lexemes expression := by
  intro fuel minPrec state rest result _ healthy lexemes_eq noCall follows parsed
  cases fuel with
  | zero =>
      cases parsed
  | succ fuel =>
      simp only [parseExpression] at parsed
      obtain ⟨lhs, lhsParsed, loop⟩ := Outcome.bind_eq_ok.mp parsed
      exact ⟨fuel, lhs, loop,
        agrees fuel state rest lhs healthy lexemes_eq noCall follows lhsParsed⟩

/-- One more operand with its operator. -/
theorem Leads.operator
    {maxPrec operandPrec : Nat}
    {leftFollows rightFollows : TokKind → Prop}
    {operator : TokKind}
    {combine : Nat → Nat × ParserState → Nat × ParserState}
    {combineTrees : AtomTree → AtomTree → AtomTree}
    {operation : Expression → Expression → Expression}
    (combines : Combines combine combineTrees)
    (means :
      ∀ {table : Snapshot} {first second : AtomTree} {left right : Expression},
        Denotes meaning table context.namespaceName first left →
        Denotes meaning table context.namespaceName second right →
        Denotes meaning table context.namespaceName (combineTrees first second)
          (operation left right))
    (isOperator : operator ≠ .lParen ∧ leftFollows operator)
    (round :
      ∀ {fuel minPrec : Nat} {state : ParserState} {rhs : Nat × ParserState}
        {other : Nat → Nat × ParserState → Nat × ParserState},
        nextKind state.lexemes = operator →
        Round context fuel minPrec state rhs other →
        other = combine ∧
          parseExpression context fuel operandPrec state.advance = .ok rhs)
    (goesOn :
      ∀ {minPrec : Nat}, minPrec ≤ maxPrec → ¬Stops minPrec operator)
    {leftLexemes rightLexemes : List Lexeme}
    {left right : Expression}
    (leads : Leads meaning context maxPrec leftFollows leftLexemes left)
    (operand :
      Agrees meaning context (fun fuel => parseExpression context fuel operandPrec)
        rightFollows rightLexemes right)
    (nonempty : rightLexemes ≠ []) :
    Leads meaning context maxPrec rightFollows
      (leftLexemes ++ (operator, []) :: rightLexemes) (operation left right) := by
  intro fuel minPrec state rest result low healthy lexemes_eq noCall follows parsed
  have lexemes_eq :
      state.lexemes = leftLexemes ++ (operator, []) :: (rightLexemes ++ rest) := by
    rw [lexemes_eq, List.append_assoc, List.cons_append]
  obtain ⟨before, lhs, loop, read⟩ :=
    leads fuel minPrec state _ result low healthy lexemes_eq
      (fun _ => isOperator.1) isOperator.2 parsed
  have next : nextKind lhs.2.lexemes = operator := by
    rw [read.lexemes_eq]
    rfl
  cases before with
  | zero =>
      cases loop
  | succ before =>
      rcases parseOperators_cases loop with
        ⟨rhs, other, isRound, loop⟩ | ⟨-, stops⟩
      · obtain ⟨same, rhsParsed⟩ := round next isRound
        subst other
        have passed := (Continues.refl read.continues.healthy).advance
        rw [List.append_cons] at noCall
        have rightRead :=
          operand before lhs.2.advance rest rhs passed.healthy
            (by simp [read.lexemes_eq]) (noCall.of_append nonempty) follows
            rhsParsed
        exact ⟨before, combine lhs.1 rhs, loop,
          read.combine combines means rightRead.of_advance⟩
      · rw [next] at stops
        exact absurd stops (goesOn low)

/-- A factor without an operator before it. -/
theorem Leads.adjacent
    {leftLexemes rightLexemes : List Lexeme}
    {left right : Expression}
    (leads : Leads meaning context 2 EndsOperand leftLexemes left)
    (operand :
      Agrees meaning context (fun fuel => parseExpression context fuel 3)
        EndsOperand rightLexemes right)
    (starts : startsPrimary (nextKind rightLexemes) = true)
    (nonempty : rightLexemes ≠ [])
    (leftNoCall : NoCall leftLexemes (nextKind rightLexemes)) :
    Leads meaning context 2 EndsOperand (leftLexemes ++ rightLexemes)
      (.product left right) := by
  intro fuel minPrec state rest result low healthy lexemes_eq noCall follows parsed
  rw [List.append_assoc] at lexemes_eq
  have next : nextKind (rightLexemes ++ rest) = nextKind rightLexemes :=
    nextKind_append nonempty rest
  have notCaret := endsOperand_of_startsPrimary starts
  rw [← next] at leftNoCall notCaret starts
  obtain ⟨before, lhs, loop, read⟩ :=
    leads fuel minPrec state _ result low healthy lexemes_eq leftNoCall notCaret
      parsed
  rw [← read.lexemes_eq] at starts
  cases before with
  | zero =>
      cases loop
  | succ before =>
      rcases parseOperators_cases loop with
        ⟨rhs, combine, round, loop⟩ | ⟨-, stops⟩
      · cases round with
        | add isOperator | subtract isOperator | times isOperator | divide isOperator =>
            rw [isOperator] at starts
            cases starts
        | adjacent _ _ rhsParsed =>
            have rightRead :=
              operand before lhs.2 rest rhs read.continues.healthy
                read.lexemes_eq (noCall.of_append nonempty) follows rhsParsed
            exact ⟨before, mulOperands lhs.1 rhs, loop,
              read.combine combines_mul Denotes.product rightRead⟩
      · exact absurd (Or.inr starts) (stops.noProduct low)

omit [StringHash] in
/-- The first lexeme comes first, whatever follows it. -/
theorem peek_of_cons
    {state : ParserState}
    {first : Lexeme}
    {rest : List Lexeme}
    (lexemes_eq : state.lexemes = first :: rest) :
    state.peek.kind = first.1 ∧ state.peek.text = first.2 ∧
      state.advance.lexemes = rest := by
  simp [lexemes_eq, nextKind]

/-- A numeral. -/
theorem agrees_number
    {text : Text}
    (numeral : IsNumeral text) :
    Agrees meaning context (parsePrimary context) (fun _ => True)
      [(.number, text)] (.number (bigIntOfString text)) := by
  intro fuel state rest result healthy lexemes_eq _ _ parsed
  obtain ⟨kind, text_eq, advanced⟩ := peek_of_cons lexemes_eq
  cases fuel with
  | zero =>
      cases parsed
  | succ fuel =>
      simp only [parsePrimary, kind, text_eq, numeral.1, if_false] at parsed
      cases parsed
      have passed := (Continues.refl healthy).advance
      have built :=
        AtomStore.num_built passed.healthy.invariant (bigIntOfString text : ℚ)
      have denotes :
          Denotes meaning state.advance.table context.namespaceName
            (.num (bigIntOfString text)) (.number (bigIntOfString text)) :=
        .number _
      have read := ReadAs.of_built passed built denotes
      rwa [advanced] at read

/-- The state after a name has been registered. -/
theorem continues_registered
    {state : ParserState}
    (healthy : Healthy state)
    {name : Text}
    (identifier : IsIdentifier name)
    {symbol : Symbol}
    {table : Snapshot}
    (resolved :
      SymbolTable.getSymbol state.table context.namespaceName name []
          context.location =
        .ok (symbol, table)) :
    Continues state { state.advance with table := table } ∧
      PlainSymbol table context.namespaceName symbol name := by
  obtain ⟨consistent, registered, plain⟩ :=
    ParserDelivers.registered_plain healthy.consistent resolved identifier
  have passed := (Continues.refl healthy).advance
  exact ⟨⟨⟨healthy.invariant, consistent, passed.healthy.names⟩,
    passed.growth, registered⟩, plain⟩

/-- A name that no parenthesis follows. -/
theorem agrees_var
    {name : Text} :
    Agrees meaning context (parsePrimary context) (fun _ => True)
      [(.ident, name)] (.var name) := by
  intro fuel state rest result healthy lexemes_eq noCall _ parsed
  obtain ⟨kind, text_eq, advanced⟩ := peek_of_cons lexemes_eq
  have identifier := healthy.peek_name kind
  rw [text_eq] at identifier
  have noParen : nextKind rest ≠ .lParen := noCall ⟨name, rfl⟩
  cases fuel with
  | zero =>
      cases parsed
  | succ fuel =>
      simp only [parsePrimary, kind, text_eq] at parsed
      split at parsed
      · cases parsed
      · rename_i symbol table resolved
        obtain ⟨named, plain⟩ := continues_registered healthy identifier resolved
        split_ifs at parsed with isCall
        · rw [ParserState.kind_peek, lexemes_withTable, advanced] at isCall
          exact absurd isCall noParen
        · cases parsed
          have built := AtomStore.var_built named.healthy.invariant symbol
          have denotes :
              Denotes meaning table context.namespaceName (.var symbol)
                (.var name) :=
            .var plain
          have read := ReadAs.of_built named built denotes
          rwa [lexemes_withTable, advanced] at read

/-- An expression between parentheses. -/
theorem Leads.parenthesized
    (leads : Leads meaning context 1 EndsProduct lexemes expression) :
    Agrees meaning context (parsePrimary context) (fun _ => True)
      (parenthesized lexemes) expression := by
  intro fuel state rest result healthy lexemes_eq _ _ parsed
  have lexemes_eq :
      state.lexemes = (.lParen, []) :: (lexemes ++ (.rParen, []) :: rest) := by
    simpa [AtomCore.parenthesized] using lexemes_eq
  obtain ⟨kind, -, advanced⟩ := peek_of_cons lexemes_eq
  cases fuel with
  | zero =>
      cases parsed
  | succ fuel =>
      simp only [parsePrimary, kind] at parsed
      obtain ⟨inner, innerParsed, closed⟩ := Outcome.bind_eq_ok.mp parsed
      obtain ⟨passed, expected, built⟩ := Outcome.bind_eq_ok.mp closed
      have start := (Continues.refl healthy).advance
      have read :=
        leads.whole fuel state.advance _ inner start.healthy advanced
          (fun _ => TokKind.noConfusion) (Or.inl rfl) innerParsed
      have passed_eq := eq_advance_of_expect expected
      subst passed
      cases built
      have read := read.of_advance
      exact ⟨read.continues.advance, read.inside, by simp [read.lexemes_eq],
        read.denotes⟩

/-- The same for several arguments. -/
structure ReadAllAs
    (meaning : Interpretation K)
    (context : ParserContext)
    (state : ParserState)
    (rest : List Lexeme)
    (result : List Nat × ParserState)
    (expressions : List Expression) : Prop where
  continues : Continues state result.2
  inside : ∀ slot ∈ result.1, slot < result.2.store.nodes.length
  lexemes_eq : result.2.lexemes = rest
  denotes :
    List.Forall₂ (Denotes meaning result.2.table context.namespaceName)
      (result.1.map result.2.store.tree) expressions

/-- No arguments. -/
theorem readAllAs_nil
    {state : ParserState}
    {rest : List Lexeme}
    (healthy : Healthy state)
    (lexemes_eq : state.lexemes = rest) :
    ReadAllAs meaning context state rest ([], state) [] :=
  ⟨Continues.refl healthy, nofun, lexemes_eq, .nil⟩

/-- One argument more, read before the others. -/
theorem ReadAs.cons
    {state : ParserState}
    {middle rest : List Lexeme}
    {first : Nat × ParserState}
    {others : List Nat × ParserState}
    {expression : Expression}
    {expressions : List Expression}
    (read : ReadAs meaning context state middle first expression)
    (later : ReadAllAs meaning context first.2 rest others expressions) :
    ReadAllAs meaning context state rest (first.1 :: others.1, others.2)
      (expression :: expressions) where
  continues := read.continues.trans later.continues
  inside := by
    intro slot member
    rcases List.mem_cons.mp member with isFirst | isLater
    · subst slot
      exact later.continues.growth.inside read.inside
    · exact later.inside slot isLater
  lexemes_eq := later.lexemes_eq
  denotes := by
    refine .cons ?_ later.denotes
    have denotes := read.denotes.registered later.continues.registered
    rwa [← later.continues.growth.tree read.continues.healthy.invariant.wellFormed
      later.continues.healthy.invariant.wellFormed read.inside] at denotes

/-- An argument, before the others or the end of the call. -/
theorem Leads.argument
    (leads : Leads meaning context 1 EndsProduct lexemes expression)
    {fuel : Nat}
    {state : ParserState}
    {others : List (List Lexeme)}
    {rest : List Lexeme}
    {result : Nat × ParserState}
    (healthy : Healthy state)
    (lexemes_eq :
      state.lexemes =
        lexemes ++
          (others.flatMap (fun lexemes => (.comma, []) :: lexemes) ++
            (.rParen, []) :: rest))
    (parsed : parseExpression context fuel 1 state = .ok result) :
    ReadAs meaning context state
      (others.flatMap (fun lexemes => (.comma, []) :: lexemes) ++
        (.rParen, []) :: rest)
      result expression := by
  cases others with
  | nil =>
      exact leads.whole fuel state _ result healthy lexemes_eq
        (fun _ => TokKind.noConfusion) (Or.inl rfl) parsed
  | cons other others =>
      exact leads.whole fuel state _ result healthy lexemes_eq
        (fun _ => TokKind.noConfusion) (Or.inr (Or.inl rfl)) parsed

/-- Arguments after the first one, each with its comma. -/
theorem readAllAs_more
    {arguments : List (List Lexeme × Expression)}
    (all :
      ∀ argument ∈ arguments,
        Leads meaning context 1 EndsProduct argument.1 argument.2)
    {fuel : Nat}
    {state : ParserState}
    {rest : List Lexeme}
    {result : List Nat × ParserState}
    (healthy : Healthy state)
    (lexemes_eq :
      state.lexemes =
        (arguments.map Prod.fst).flatMap (fun lexemes => (.comma, []) :: lexemes) ++
          (.rParen, []) :: rest)
    (parsed : parseMoreArguments context fuel state = .ok result) :
    ReadAllAs meaning context state ((.rParen, []) :: rest) result
      (arguments.map Prod.snd) := by
  induction arguments generalizing fuel state result with
  | nil =>
      cases fuel with
      | zero =>
          cases parsed
      | succ fuel =>
          have next : nextKind state.lexemes = .rParen := by
            rw [lexemes_eq]
            rfl
          simp only [parseMoreArguments, ParserState.kind_peek, next] at parsed
          cases parsed
          exact readAllAs_nil healthy lexemes_eq
  | cons argument others inductionHypothesis =>
      obtain ⟨lexemes, expression⟩ := argument
      have lexemes_eq :
          state.lexemes =
            (.comma, []) ::
              (lexemes ++
                ((others.map Prod.fst).flatMap
                    (fun lexemes => (.comma, []) :: lexemes) ++
                  (.rParen, []) :: rest)) := by
        simpa using lexemes_eq
      obtain ⟨kind, -, advanced⟩ := peek_of_cons lexemes_eq
      cases fuel with
      | zero =>
          cases parsed
      | succ fuel =>
          simp only [parseMoreArguments, kind, if_true] at parsed
          obtain ⟨next, nextParsed, collected⟩ := Outcome.bind_eq_ok.mp parsed
          obtain ⟨later, laterParsed, built⟩ := Outcome.bind_eq_ok.mp collected
          cases built
          have start := (Continues.refl healthy).advance
          have read :=
            (all (lexemes, expression) (by simp)).argument start.healthy advanced
              nextParsed
          exact read.of_advance.cons
            (inductionHypothesis (fun other member => all other (by simp [member]))
              read.continues.healthy read.lexemes_eq laterParsed)

/-- All arguments of a call. -/
theorem readAllAs_arguments
    {arguments : List (List Lexeme × Expression)}
    (all :
      ∀ argument ∈ arguments,
        Leads meaning context 1 EndsProduct argument.1 argument.2)
    (starts :
      ∀ argument ∈ arguments,
        argument.1 ≠ [] ∧ nextKind argument.1 ≠ .rParen)
    {fuel : Nat}
    {state : ParserState}
    {rest : List Lexeme}
    {result : List Nat × ParserState}
    (healthy : Healthy state)
    (lexemes_eq :
      state.lexemes =
        joinLexemes .comma (arguments.map Prod.fst) ++ (.rParen, []) :: rest)
    (parsed : parseArguments context fuel state = .ok result) :
    ReadAllAs meaning context state ((.rParen, []) :: rest) result
      (arguments.map Prod.snd) := by
  cases fuel with
  | zero =>
      cases parsed
  | succ fuel =>
      cases arguments with
      | nil =>
          have next : nextKind state.lexemes = .rParen := by
            rw [lexemes_eq]
            rfl
          simp only [parseArguments, ParserState.kind_peek, next, if_true] at parsed
          cases parsed
          exact readAllAs_nil healthy lexemes_eq
      | cons argument others =>
          obtain ⟨lexemes, expression⟩ := argument
          obtain ⟨nonempty, noParen⟩ := starts (lexemes, expression) (by simp)
          have lexemes_eq :
              state.lexemes =
                lexemes ++
                  ((others.map Prod.fst).flatMap
                      (fun lexemes => (.comma, []) :: lexemes) ++
                    (.rParen, []) :: rest) := by
            simpa [joinLexemes] using lexemes_eq
          have next : nextKind state.lexemes ≠ .rParen := by
            rwa [lexemes_eq, nextKind_append nonempty]
          simp only [parseArguments, ParserState.kind_peek, next, if_false] at parsed
          obtain ⟨first, firstParsed, collected⟩ := Outcome.bind_eq_ok.mp parsed
          obtain ⟨later, laterParsed, built⟩ := Outcome.bind_eq_ok.mp collected
          cases built
          have read :=
            (all (lexemes, expression) (by simp)).argument healthy lexemes_eq
              firstParsed
          exact read.cons
            (readAllAs_more (fun other member => all other (by simp [member]))
              read.continues.healthy read.lexemes_eq laterParsed)

/-- A call. -/
theorem agrees_call
    {name : Text}
    {arguments : List (List Lexeme × Expression)}
    (all :
      ∀ argument ∈ arguments,
        Leads meaning context 1 EndsProduct argument.1 argument.2)
    (starts :
      ∀ argument ∈ arguments,
        argument.1 ≠ [] ∧ nextKind argument.1 ≠ .rParen) :
    Agrees meaning context (parsePrimary context) (fun _ => True)
      ((.ident, name) ::
        parenthesized (joinLexemes .comma (arguments.map Prod.fst)))
      (.call name (arguments.map Prod.snd)) := by
  intro fuel state rest result healthy lexemes_eq _ _ parsed
  have lexemes_eq :
      state.lexemes =
        (.ident, name) :: (.lParen, []) ::
          (joinLexemes .comma (arguments.map Prod.fst) ++ (.rParen, []) :: rest) := by
    simpa [parenthesized] using lexemes_eq
  obtain ⟨kind, text_eq, advanced⟩ := peek_of_cons lexemes_eq
  have identifier := healthy.peek_name kind
  rw [text_eq] at identifier
  cases fuel with
  | zero =>
      cases parsed
  | succ fuel =>
      simp only [parsePrimary, kind, text_eq] at parsed
      split at parsed
      · cases parsed
      · rename_i symbol table resolved
        obtain ⟨named, plain⟩ := continues_registered healthy identifier resolved
        have namedLexemes :
            ({ state.advance with table := table } : ParserState).lexemes =
              (.lParen, []) ::
                (joinLexemes .comma (arguments.map Prod.fst) ++
                  (.rParen, []) :: rest) := by
          rw [lexemes_withTable, advanced]
        obtain ⟨isCall, -, passed⟩ := peek_of_cons namedLexemes
        rw [if_pos isCall] at parsed
        obtain ⟨slots, slotsParsed, closed⟩ := Outcome.bind_eq_ok.mp parsed
        obtain ⟨finished, expected, built⟩ := Outcome.bind_eq_ok.mp closed
        have read :=
          readAllAs_arguments all starts named.advance.healthy passed slotsParsed
        have continues := named.advance.trans read.continues
        have finished_eq := eq_advance_of_expect expected
        subst finished
        cases built
        have denotes :=
          Denotes.call (plain.registered read.continues.registered) read.denotes
        have whole :=
          ReadAs.of_built continues.advance
            (AtomStore.func_built continues.healthy.invariant symbol read.inside)
            denotes
        rwa [ParserState.lexemes_advance, read.lexemes_eq] at whole

/-- A primary without an exponent. -/
theorem Agrees.base
    (agrees :
      Agrees meaning context (parsePrimary context) (fun _ => True) lexemes
        expression) :
    Agrees meaning context (parsePow context) EndsOperand lexemes expression := by
  intro fuel state rest result healthy lexemes_eq noCall follows parsed
  cases fuel with
  | zero =>
      cases parsed
  | succ fuel =>
      simp only [parsePow] at parsed
      obtain ⟨base, baseParsed, rest_eq⟩ := Outcome.bind_eq_ok.mp parsed
      have read :=
        agrees fuel state rest base healthy lexemes_eq noCall trivial baseParsed
      split_ifs at rest_eq with caret
      · rw [ParserState.kind_peek, read.lexemes_eq] at caret
        exact absurd caret follows
      · cases rest_eq
        exact read

/-- An exponent after a base that has been read. -/
theorem Agrees.raises
    {exponentLexemes : List Lexeme}
    {base exponent : Expression}
    (agrees :
      Agrees meaning context (parseUnary context) EndsOperand exponentLexemes
        exponent)
    {fuel : Nat}
    {state : ParserState}
    {rest : List Lexeme}
    {baseResult exponentResult : Nat × ParserState}
    (read :
      ReadAs meaning context state ((.caret, []) :: (exponentLexemes ++ rest))
        baseResult base)
    (noCall : NoCall exponentLexemes (nextKind rest))
    (follows : EndsOperand (nextKind rest))
    (parsed :
      parseUnary context fuel baseResult.2.advance = .ok exponentResult) :
    ReadAs meaning context state rest (powOperands baseResult.1 exponentResult)
      (.power base exponent) := by
  have passed := (Continues.refl read.continues.healthy).advance
  have exponentRead :=
    agrees fuel baseResult.2.advance rest exponentResult passed.healthy
      (by simp [read.lexemes_eq]) noCall follows parsed
  exact read.combine combines_pow Denotes.power exponentRead.of_advance

/-- A primary with an exponent. -/
theorem Agrees.caret
    {baseLexemes exponentLexemes : List Lexeme}
    {base exponent : Expression}
    (baseAgrees :
      Agrees meaning context (parsePrimary context) (fun _ => True) baseLexemes base)
    (exponentAgrees :
      Agrees meaning context (parseUnary context) EndsOperand exponentLexemes
        exponent)
    (nonempty : exponentLexemes ≠ []) :
    Agrees meaning context (parsePow context) EndsOperand
      (baseLexemes ++ (.caret, []) :: exponentLexemes) (.power base exponent) := by
  intro fuel state rest result healthy lexemes_eq noCall follows parsed
  rw [List.append_assoc, List.cons_append] at lexemes_eq
  rw [List.append_cons] at noCall
  cases fuel with
  | zero =>
      cases parsed
  | succ fuel =>
      simp only [parsePow] at parsed
      obtain ⟨baseResult, baseParsed, rest_eq⟩ := Outcome.bind_eq_ok.mp parsed
      have read :=
        baseAgrees fuel state _ baseResult healthy lexemes_eq
          (fun _ => TokKind.noConfusion) trivial baseParsed
      have isCaret : baseResult.2.peek.kind = .caret := by
        rw [ParserState.kind_peek, read.lexemes_eq]
        rfl
      rw [if_pos isCaret] at rest_eq
      obtain ⟨exponentResult, exponentParsed, built⟩ := Outcome.bind_eq_ok.mp rest_eq
      cases built
      have whole :=
        exponentAgrees.raises read (noCall.of_append nonempty) follows exponentParsed
      exact whole

/-- A power without a sign. -/
theorem Agrees.unsigned
    (agrees :
      Agrees meaning context (parsePow context) EndsOperand lexemes expression)
    (nonempty : lexemes ≠ [])
    (starts : startsPrimary (nextKind lexemes) = true) :
    Agrees meaning context (parseUnary context) EndsOperand lexemes expression := by
  intro fuel state rest result healthy lexemes_eq noCall follows parsed
  have next : state.peek.kind = nextKind lexemes := by
    rw [ParserState.kind_peek, lexemes_eq, nextKind_append nonempty]
  cases fuel with
  | zero =>
      cases parsed
  | succ fuel =>
      simp only [parseUnary, next] at parsed
      split_ifs at parsed with minus _ _ _ plus
      · rw [minus] at starts
        cases starts
      · rw [minus] at starts
        cases starts
      · rw [minus] at starts
        cases starts
      · rw [minus] at starts
        cases starts
      · rw [plus] at starts
        cases starts
      · exact agrees fuel state rest result healthy lexemes_eq noCall follows parsed

/-- A plus sign. -/
theorem Agrees.plus
    (agrees :
      Agrees meaning context (parseUnary context) EndsOperand lexemes expression)
    (nonempty : lexemes ≠ []) :
    Agrees meaning context (parseUnary context) EndsOperand
      ((.plus, []) :: lexemes) expression := by
  intro fuel state rest result healthy lexemes_eq noCall follows parsed
  obtain ⟨kind, -, advanced⟩ := peek_of_cons lexemes_eq
  have noCall := @NoCall.of_append [(.plus, [])] _ _ noCall nonempty
  cases fuel with
  | zero =>
      cases parsed
  | succ fuel =>
      simp only [parseUnary, kind, if_true] at parsed
      have passed := (Continues.refl healthy).advance
      exact (agrees fuel state.advance rest result passed.healthy advanced noCall
        follows parsed).of_advance

/-- A minus sign before what is no numeral. -/
theorem Agrees.minus
    (agrees :
      Agrees meaning context (parseUnary context) EndsOperand lexemes expression)
    (nonempty : lexemes ≠ [])
    (noNumeral : nextKind lexemes ≠ .number) :
    Agrees meaning context (parseUnary context) EndsOperand
      ((.minus, []) :: lexemes) (.negation expression) := by
  intro fuel state rest result healthy lexemes_eq noCall follows parsed
  obtain ⟨kind, -, advanced⟩ := peek_of_cons lexemes_eq
  have noCall := @NoCall.of_append [(.minus, [])] _ _ noCall nonempty
  have lookahead : state.lookahead.kind ≠ .number := by
    rwa [ParserState.lookahead_eq, ParserState.kind_peek, advanced,
      List.append_eq, nextKind_append nonempty]
  cases fuel with
  | zero =>
      cases parsed
  | succ fuel =>
      simp only [parseUnary, kind, if_true, lookahead, if_false] at parsed
      obtain ⟨value, valueParsed, built⟩ := Outcome.bind_eq_ok.mp parsed
      cases built
      have passed := (Continues.refl healthy).advance
      have read :=
        (agrees fuel state.advance rest value passed.healthy advanced noCall follows
          valueParsed).of_advance
      have negated :=
        parsedAs_negate (parsedAs_refl read.continues.healthy read.inside)
      have whole := ReadAs.of_parsedAs read.continues negated read.denotes.negation
      rwa [read.lexemes_eq] at whole

/-- The literal that a minus and a numeral make. -/
theorem readAs_literal
    {text : Text}
    (numeral : IsNumeral text)
    {state : ParserState}
    {rest : List Lexeme}
    (healthy : Healthy state)
    (lexemes_eq : state.lexemes = (.minus, []) :: (.number, text) :: rest) :
    ReadAs meaning context state rest
      (AtomCore.numeral state.advance.advance ('-' :: text))
      (.negation (.number (bigIntOfString text))) := by
  obtain ⟨-, -, advanced⟩ := peek_of_cons lexemes_eq
  obtain ⟨-, -, passed⟩ := peek_of_cons advanced
  have continues := (Continues.refl healthy).advance.advance
  have denotes :
      Denotes meaning state.advance.advance.table context.namespaceName
        (.num (bigIntOfString ('-' :: text)))
        (.negation (.number (bigIntOfString text))) :=
    .literal numeral
  have read :=
    ReadAs.of_built continues
      (AtomStore.num_built continues.healthy.invariant
        (bigIntOfString ('-' :: text) : ℚ)) denotes
  rwa [passed] at read

/-- A negative literal. -/
theorem agrees_literal
    {text : Text}
    (numeral : IsNumeral text) :
    Agrees meaning context (parseUnary context) EndsOperand
      [(.minus, []), (.number, text)]
      (.negation (.number (bigIntOfString text))) := by
  intro fuel state rest result healthy lexemes_eq _ follows parsed
  have lexemes_eq : state.lexemes = (.minus, []) :: (.number, text) :: rest :=
    lexemes_eq
  obtain ⟨kind, -, advanced⟩ := peek_of_cons lexemes_eq
  obtain ⟨lookahead, text_eq, -⟩ := peek_of_cons advanced
  have read :
      ReadAs meaning context state rest
        (AtomCore.numeral state.advance.advance ('-' :: text))
        (.negation (.number (bigIntOfString text))) :=
    readAs_literal numeral healthy lexemes_eq
  cases fuel with
  | zero =>
      cases parsed
  | succ fuel =>
      simp only [parseUnary, ParserState.lookahead_eq, kind, lookahead, text_eq,
        numeral.1, if_true, if_false] at parsed
      split_ifs at parsed with caret
      · rw [ParserState.kind_peek, read.lexemes_eq] at caret
        exact absurd caret follows
      · cases parsed
        exact read

/-- A negative literal with an exponent. -/
theorem Agrees.raisedLiteral
    {text : Text}
    (numeral : IsNumeral text)
    {exponentLexemes : List Lexeme}
    {exponent : Expression}
    (agrees :
      Agrees meaning context (parseUnary context) EndsOperand exponentLexemes
        exponent)
    (nonempty : exponentLexemes ≠ []) :
    Agrees meaning context (parseUnary context) EndsOperand
      ((.minus, []) :: (.number, text) :: (.caret, []) :: exponentLexemes)
      (.power (.negation (.number (bigIntOfString text))) exponent) := by
  intro fuel state rest result healthy lexemes_eq noCall follows parsed
  have lexemes_eq :
      state.lexemes =
        (.minus, []) :: (.number, text) :: (.caret, []) :: (exponentLexemes ++ rest) :=
    lexemes_eq
  have noCall :=
    @NoCall.of_append [(.minus, []), (.number, text), (.caret, [])] _ _ noCall
      nonempty
  obtain ⟨kind, -, advanced⟩ := peek_of_cons lexemes_eq
  obtain ⟨lookahead, text_eq, -⟩ := peek_of_cons advanced
  have read :
      ReadAs meaning context state ((.caret, []) :: (exponentLexemes ++ rest))
        (AtomCore.numeral state.advance.advance ('-' :: text))
        (.negation (.number (bigIntOfString text))) :=
    readAs_literal numeral healthy lexemes_eq
  have caret :
      (AtomCore.numeral state.advance.advance ('-' :: text)).2.peek.kind =
        .caret := by
    rw [ParserState.kind_peek, read.lexemes_eq]
    rfl
  cases fuel with
  | zero =>
      cases parsed
  | succ fuel =>
      simp only [parseUnary, ParserState.lookahead_eq, kind, lookahead, text_eq,
        numeral.1, if_true, if_false, caret] at parsed
      obtain ⟨exponentResult, exponentParsed, built⟩ := Outcome.bind_eq_ok.mp parsed
      cases built
      have whole := agrees.raises read noCall follows exponentParsed
      exact whole

/-- What the runs on derivable lexemes give, level by level. -/
def LevelAgrees
    (meaning : Interpretation K)
    (context : ParserContext) :
    Level → List Lexeme → Expression → Prop
  | .primary => Agrees meaning context (parsePrimary context) fun _ => True
  | .power => Agrees meaning context (parsePow context) EndsOperand
  | .unary => Agrees meaning context (parseUnary context) EndsOperand
  | .product => Leads meaning context 2 EndsOperand
  | .sum => Leads meaning context 1 EndsProduct

/-- On derivable lexemes the parser builds the value of the derivation. -/
theorem levelAgrees
    (powers : meaning.IntegerPowers)
    {level : Level}
    (reads : Reads .negativeLiterals level lexemes expression) :
    LevelAgrees meaning context level lexemes expression := by
  induction reads with
  | number numeral =>
      exact agrees_number numeral
  | var =>
      exact agrees_var
  | call all inductionHypothesis =>
      refine agrees_call inductionHypothesis fun argument member => ?_
      have reads := all argument member
      refine ⟨reads.nonempty, fun isParen => ?_⟩
      have starts := reads.starts
      rw [isParen] at starts
      simp [startsPrimary] at starts
  | parenthesized _ inductionHypothesis =>
      exact inductionHypothesis.parenthesized
  | base _ inductionHypothesis =>
      exact inductionHypothesis.base
  | caret _ exponent baseHypothesis exponentHypothesis =>
      exact baseHypothesis.caret exponentHypothesis exponent.nonempty
  | unsigned power inductionHypothesis =>
      exact inductionHypothesis.unsigned power.nonempty power.starts_power
  | plus operand inductionHypothesis =>
      exact inductionHypothesis.plus operand.nonempty
  | @minus lexemes _ operand notRaised inductionHypothesis =>
      by_cases isNumber : nextKind lexemes = .number
      · obtain ⟨text, numeral, lexemes_eq, operand_eq⟩ :=
          operand.unary_numeral isNumber (notRaised rfl)
        subst lexemes_eq
        subst operand_eq
        exact agrees_literal numeral
      · exact inductionHypothesis.minus operand.nonempty isNumber
  | raisedLiteral _ numeral exponent inductionHypothesis =>
      exact inductionHypothesis.raisedLiteral numeral exponent.nonempty
  | factor _ inductionHypothesis =>
      exact inductionHypothesis.factor
  | times _ right leftHypothesis rightHypothesis =>
      exact leftHypothesis.operator combines_mul .product
        ⟨TokKind.noConfusion, TokKind.noConfusion⟩
        (Round.of_operator rfl) (fun low stops => stops.noProduct low (Or.inl (Or.inl rfl)))
        rightHypothesis.operand right.nonempty
  | divide _ right leftHypothesis rightHypothesis =>
      exact leftHypothesis.operator combines_divide (.quotient powers)
        ⟨TokKind.noConfusion, TokKind.noConfusion⟩
        (Round.of_operator rfl) (fun low stops => stops.noProduct low (Or.inl (Or.inr rfl)))
        rightHypothesis.operand right.nonempty
  | adjacent _ right noCall leftHypothesis rightHypothesis =>
      have operand := rightHypothesis.unsigned right.nonempty right.starts_power
      exact leftHypothesis.adjacent operand.operand right.starts_power
        right.nonempty noCall
  | term _ inductionHypothesis =>
      intro fuel minPrec state rest result low healthy lexemes_eq noCall follows parsed
      exact inductionHypothesis fuel minPrec state rest result
        (low.trans (by decide)) healthy lexemes_eq noCall follows.1 parsed
  | add _ right leftHypothesis rightHypothesis =>
      exact leftHypothesis.operator combines_add .sum
        ⟨TokKind.noConfusion, TokKind.noConfusion, by simp [Multiplies, startsPrimary]⟩
        (Round.of_operator rfl) (fun low stops => (stops.noSum low).1 rfl)
        rightHypothesis.term right.nonempty
  | subtract _ right leftHypothesis rightHypothesis =>
      exact leftHypothesis.operator combines_subtract .difference
        ⟨TokKind.noConfusion, TokKind.noConfusion, by simp [Multiplies, startsPrimary]⟩
        (Round.of_operator rfl) (fun low stops => (stops.noSum low).2 rfl)
        rightHypothesis.term right.nonempty

omit [StringHash] in
/-- A text has one list of lexemes. -/
theorem HasLexemes.unique
    {text : Text}
    {first second : List Lexeme}
    (firstHas : HasLexemes text first)
    (secondHas : HasLexemes text second) :
    first = second := by
  obtain ⟨tokens, tokenized, first_eq⟩ := firstHas
  obtain ⟨others, tokenizedAgain, second_eq⟩ := secondHas
  rw [tokenized, Except.ok.injEq] at tokenizedAgain
  subst others
  exact List.append_cancel_right (first_eq.symm.trans second_eq)

/-- Every derivation of an accepted text has the value of the atom. -/
theorem parse_value
    {store : AtomStore}
    (invariant : store.Invariant)
    {table : Snapshot}
    (consistent : table.Consistent)
    {text : Text}
    {slot : Nat}
    {state : ParserState}
    (parsed : parse context text store table = .ok (slot, state))
    (has : HasLexemes text lexemes)
    (reads : Reads .negativeLiterals .sum lexemes expression)
    (powers : meaning.IntegerPowers) :
    (state.store.tree slot).eval meaning =
      expression.value meaning (symbolOf state.table context.namespaceName) := by
  obtain ⟨tokens, fuel, whole, tokenized, wholeParsed, -, result_eq⟩ :=
    parse_cases parsed
  obtain ⟨others, tokenizedAgain, tokens_eq⟩ := has
  rw [tokenized, Except.ok.injEq] at tokenizedAgain
  subst others
  cases result_eq
  have healthy : Healthy { tokens := tokens, store := store, table := table } :=
    ⟨invariant, consistent, tokenizeFuel_names tokenized⟩
  have leads : Leads meaning context 1 EndsProduct lexemes expression :=
    levelAgrees powers reads
  have read :=
    leads.whole fuel _ _ whole healthy tokens_eq (fun _ => TokKind.noConfusion)
      (Or.inr (Or.inr rfl)) wholeParsed
  exact read.denotes whole.2.table read.continues.healthy.consistent List.prefix_rfl

/--
Whatever the parser accepts is derivable, and the atom has the value of every
derivation, wherever integer powers mean powers.
-/
def FollowsGrammar.{u}
    (dialect : Dialect)
    (context : ParserContext)
    (text : Text)
    (store : AtomStore)
    (table : Snapshot) : Prop :=
  ∀ slot state,
    parse context text store table = .ok (slot, state) →
    ∃ lexemes,
      HasLexemes text lexemes ∧
      (∃ expression, Reads dialect .sum lexemes expression) ∧
      ∀ expression,
        Reads dialect .sum lexemes expression →
        ∀ (K : Type u) [Field K] (meaning : Interpretation K),
          meaning.IntegerPowers →
          (state.store.tree slot).eval meaning =
            expression.value meaning
              (symbolOf state.table context.namespaceName)

/--
The parser follows its grammar, with negative literals, on every text; in
particular a minus before any power but that of a numeral negates the power.
-/
theorem parse_followsGrammar.{u}
    {store : AtomStore}
    (built : store.Reachable)
    {table : Snapshot}
    (registered : table.Reachable)
    (text : Text) :
    parse context text store table ≠ .error .outOfFuel ∧
      FollowsGrammar.{u} .negativeLiterals context text store table ∧
      ∀ slot state baseLexemes base exponentLexemes exponent,
        parse context text store table = .ok (slot, state) →
        HasLexemes text
          ((.minus, []) :: (baseLexemes ++ (.caret, []) :: exponentLexemes)) →
        Reads .negativeLiterals .primary baseLexemes base →
        nextKind baseLexemes ≠ .number →
        Reads .negativeLiterals .unary exponentLexemes exponent →
        ∀ (K : Type u) [Field K] (meaning : Interpretation K),
          meaning.IntegerPowers →
          (state.store.tree slot).eval meaning =
            (Expression.negation (.power base exponent)).value meaning
              (symbolOf state.table context.namespaceName) := by
  refine ⟨fun stuck => parse_keepsFuel text store table _ stuck rfl, ?_, ?_⟩
  · intro slot state parsed
    obtain ⟨lexemes, expression, has, reads⟩ := parse_reads parsed
    refine ⟨lexemes, has, ⟨expression, reads⟩, ?_⟩
    intro other otherReads K _ meaning powers
    exact parse_value built.invariant registered.consistent parsed has otherReads
      powers
  · intro slot state baseLexemes base exponentLexemes exponent parsed has
      baseReads noNumeral exponentReads K _ meaning powers
    have notRaised :
        ¬RaisesNumeral (baseLexemes ++ (.caret, []) :: exponentLexemes) := by
      intro raises
      cases baseReads with
      | number =>
          exact noNumeral rfl
      | var | call | parenthesized =>
          exact raises
    have negated :=
      Reads.minus (.unsigned (.caret baseReads exponentReads)) fun _ => notRaised
    exact parse_value built.invariant registered.consistent parsed has
      (.term (.factor negated)) powers

omit [StringHash] in
/-- `-x^2` is parsed, as the negation of a square. -/
theorem parse_followsGrammar_square :
    let constant : StringHash := ⟨fun _ => 0⟩
    let context : ParserContext := ⟨"test".toList, ⟨[], 0⟩⟩
    ∃ slot state,
      @parse constant context "-x^2".toList .empty .empty = .ok (slot, state) ∧
        ∀ (K : Type) [Field K] (meaning : Interpretation K),
          meaning.IntegerPowers →
          (state.store.tree slot).eval meaning =
            (Expression.negation
              (.power (.var "x".toList) (.number 2))).value meaning
                (symbolOf state.table "test".toList) := by
  intro constant context
  have accepted :
      (@parse constant context "-x^2".toList .empty .empty).isOk = true := by
    decide +kernel
  have start : @AtomStore.Reachable constant .empty :=
    ⟨[], Transition.everyStep_nil, rfl⟩
  have has :
      HasLexemes "-x^2".toList
        [(.minus, []), (.ident, "x".toList), (.caret, []), (.number, "2".toList)] :=
    ⟨_, rfl, rfl⟩
  cases parsed : @parse constant context "-x^2".toList .empty .empty with
  | error error =>
      rw [parsed] at accepted
      cases accepted
  | ok result =>
      refine ⟨result.1, result.2, rfl, ?_⟩
      have two :
          Reads .negativeLiterals .primary [(.number, "2".toList)] (.number 2) :=
        .number (by simp [IsNumeral])
      exact
        (@parse_followsGrammar.{0} constant context _ start _ .empty _).2.2
          result.1 result.2 [(.ident, "x".toList)] (.var "x".toList)
          [(.number, "2".toList)] (.number 2) parsed has .var TokKind.noConfusion
          (.unsigned (.base two))

omit [StringHash] in
/-- `-2^2` is parsed as the square of `-2`, and documented as minus four. -/
theorem negative_literal_power :
    ¬@FollowsGrammar.{0} ⟨fun _ => 0⟩ .documented ⟨"test".toList, ⟨[], 0⟩⟩
      "-2^2".toList .empty .empty := by
  intro follows
  have accepted :
      (@parse ⟨fun _ => 0⟩ ⟨"test".toList, ⟨[], 0⟩⟩ "-2^2".toList .empty
        .empty).isOk = true := by
    decide +kernel
  have numeral : IsNumeral "2".toList := by
    simp [IsNumeral]
  have two
      (dialect : Dialect) :
      Reads dialect .primary [(.number, "2".toList)] (.number 2) :=
    .number numeral
  have has :
      HasLexemes "-2^2".toList
        [(.minus, []), (.number, "2".toList), (.caret, []), (.number, "2".toList)] :=
    ⟨_, rfl, rfl⟩
  cases parsed :
      @parse ⟨fun _ => 0⟩ ⟨"test".toList, ⟨[], 0⟩⟩ "-2^2".toList .empty .empty with
  | error error =>
      rw [parsed] at accepted
      cases accepted
  | ok result =>
      obtain ⟨lexemes, lexemesHas, -, values⟩ := follows result.1 result.2 parsed
      have same := lexemesHas.unique has
      subst same
      have documented :=
        values _
          (.term (.factor (.minus
            (.unsigned (.caret (two _) (.unsigned (.base (two _))))) nofun)))
          ℚ integerPowers integerPowers_integerPowers
      have literal :=
        @parse_value ℚ _ integerPowers ⟨fun _ => 0⟩ ⟨"test".toList, ⟨[], 0⟩⟩ _ _ _
          (@AtomStore.invariant_empty ⟨fun _ => 0⟩) _
          Snapshot.Reachable.empty.consistent _ _ _ parsed has
          (.term (.factor (.raisedLiteral rfl numeral (.unsigned (.base (two _))))))
          integerPowers_integerPowers
      have isTwo : bigIntOfString "2".toList = 2 := by decide
      rw [documented, isTwo] at literal
      norm_num [Expression.value, integerPowers] at literal

end Parser

end AtomCore
