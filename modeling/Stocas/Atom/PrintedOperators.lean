import Stocas.Atom.PrintedParse
import Stocas.Atom.Reparse

namespace AtomCore

open SymbolTable (Snapshot Symbol Text)

/-!
# Parsing printed sums and products

`parse_expression` builds a sum or product from the left, so a chain of operands
is followed through its loop: `PrefixParses` says that the loop gets past some
lexemes and stands there with a left operand.  `printed_parses` then goes along
the printed tree, with the parentheses that the printer puts at each level.
-/

section Printed

variable [StringHash] {context : ParserContext} {table : Snapshot}

/--
From this level `parse_expression` comes to the point of its loop after these
lexemes, with this tree as its left operand.
-/
def PrefixParses
    (context : ParserContext)
    (table : Snapshot)
    (minPrec : Nat)
    (follows : TokKind → Prop)
    (lexemes : List Lexeme)
    (tree : AtomTree) : Prop :=
  ∀ (fuel : Nat) (state : ParserState) (rest : List Lexeme),
    Ready table state →
    state.lexemes = lexemes ++ rest →
    follows (nextKind rest) →
    5 * lexemes.length + 7 ≤ fuel + 5 →
    ∃ result left,
      ParsedAs state rest result tree ∧
        fuel ≤ left + 5 * lexemes.length ∧
        parseExpression context fuel minPrec state =
          parseOperators context left minPrec result.1 result.2

/-- A unary expression is the first left operand. -/
theorem prefix_of_unary
    {lexemes : List Lexeme}
    {tree : AtomTree}
    (nonempty : lexemes ≠ [])
    (unary : UnaryParses context table lexemes tree)
    (minPrec : Nat) :
    PrefixParses context table minPrec EndsFactor lexemes tree := by
  intro fuel state rest ready lexemes_eq follows enough
  have positive := List.length_pos_iff.mpr nonempty
  cases fuel with
  | zero =>
      omega
  | succ fuel =>
      obtain ⟨result, parses, parsed⟩ :=
        unary fuel state rest ready lexemes_eq follows (by omega)
      refine ⟨result, fuel, parsed, by omega, ?_⟩
      simp only [parseExpression, parses, Outcome.ok_bind]

/-- Where the loop stops, the left operand is the whole expression. -/
theorem PrefixParses.parses
    {minPrec : Nat}
    {follows ends : TokKind → Prop}
    {lexemes : List Lexeme}
    {tree : AtomTree}
    (reaches : PrefixParses context table minPrec follows lexemes tree)
    (ends_follows : ∀ kind, ends kind → follows kind)
    (stops :
      ∀ (fuel lhs : Nat) (state : ParserState),
        ends state.peek.kind →
        parseOperators context (fuel + 1) minPrec lhs state =
          .ok (lhs, state)) :
    Parses table (fun fuel => parseExpression context fuel minPrec) 7 ends
      lexemes tree := by
  intro fuel state rest ready lexemes_eq endsHere enough
  obtain ⟨result, left, parsed, fuelLeft, parses⟩ :=
    reaches fuel state rest ready lexemes_eq (ends_follows _ endsHere) enough
  obtain ⟨fuel', rfl⟩ : ∃ fuel', left = fuel' + 1 :=
    ⟨left - 1, by omega⟩
  refine ⟨result, parses.trans ?_, parsed⟩
  apply stops
  rwa [ParserState.kind_peek, parsed.lexemes_eq]

/-- No operator is taken at the level of operands. -/
theorem operand_parses
    {lexemes : List Lexeme}
    {tree : AtomTree}
    (nonempty : lexemes ≠ [])
    (unary : UnaryParses context table lexemes tree) :
    Parses table (fun fuel => parseExpression context fuel 3) 7 EndsFactor
      lexemes tree := by
  refine (prefix_of_unary nonempty unary 3).parses (fun _ ends => ends) ?_
  intro fuel lhs state _
  simp [parseOperators]

/-- At the level of terms the loop stops where a term ends. -/
theorem term_parses
    {follows : TokKind → Prop}
    {lexemes : List Lexeme}
    {tree : AtomTree}
    (reaches : PrefixParses context table 2 follows lexemes tree)
    (ends_follows : ∀ kind, EndsTerm kind → follows kind) :
    Parses table (fun fuel => parseExpression context fuel 2) 7 EndsTerm
      lexemes tree := by
  refine reaches.parses ends_follows ?_
  intro fuel lhs state ends
  rcases ends with isPlus | isParen | isComma | isEnd
  · simp only [parseOperators, isPlus]
    rfl
  · simp only [parseOperators, isParen]
    rfl
  · simp only [parseOperators, isComma]
    rfl
  · simp only [parseOperators, isEnd]
    rfl

/-- At the loosest level the loop stops where an expression ends. -/
theorem expression_parses
    {follows : TokKind → Prop}
    {lexemes : List Lexeme}
    {tree : AtomTree}
    (reaches : PrefixParses context table 1 follows lexemes tree)
    (ends_follows : ∀ kind, EndsExpression kind → follows kind) :
    Parses table (fun fuel => parseExpression context fuel 1) 7 EndsExpression
      lexemes tree := by
  refine reaches.parses ends_follows ?_
  intro fuel lhs state ends
  rcases ends with isParen | isComma | isEnd
  · simp only [parseOperators, isParen]
    rfl
  · simp only [parseOperators, isComma]
    rfl
  · simp only [parseOperators, isEnd]
    rfl

/-- An operator that combines two built operands into a built tree. -/
structure Combines
    (combine : Nat → Nat × ParserState → Nat × ParserState)
    (combineTrees : AtomTree → AtomTree → AtomTree) : Prop where
  parsedAs
    {state : ParserState}
    {lhs rhs : Nat × ParserState}
    {lhsTree rhsTree : AtomTree}
    {middle rest : List Lexeme} :
    ParsedAs state middle lhs lhsTree →
    ParsedAs lhs.2 rest rhs rhsTree →
    ParsedAs state rest (combine lhs.1 rhs) (combineTrees lhsTree rhsTree)

/-- One round of the loop: an operator and its right operand. -/
theorem PrefixParses.operator
    {minPrec operandPrec : Nat}
    {operator : TokKind}
    {combine : Nat → Nat × ParserState → Nat × ParserState}
    {combineTrees : AtomTree → AtomTree → AtomTree}
    (round :
      ∀ (fuel lhs : Nat) (state : ParserState),
        state.peek.kind = operator →
        parseOperators context (fuel + 1) minPrec lhs state = do
          let rhs ← parseExpression context fuel operandPrec state.advance
          let result := combine lhs rhs
          parseOperators context fuel minPrec result.1 result.2)
    (combines : Combines combine combineTrees)
    {follows operandFollows : TokKind → Prop}
    (operatorFollows : follows operator)
    {lexemes operandLexemes : List Lexeme}
    {tree operandTree : AtomTree}
    (reaches : PrefixParses context table minPrec follows lexemes tree)
    (operand :
      Parses table (fun fuel => parseExpression context fuel operandPrec) 7
        operandFollows operandLexemes operandTree) :
    PrefixParses context table minPrec operandFollows
      (lexemes ++ (operator, []) :: operandLexemes)
      (combineTrees tree operandTree) := by
  intro fuel state rest ready lexemes_eq followsHere enough
  simp only [List.length_append, List.length_cons] at enough ⊢
  obtain ⟨lhs, left, lhsParsed, fuelLeft, parses⟩ :=
    reaches fuel state ((operator, []) :: (operandLexemes ++ rest)) ready
      (by rw [lexemes_eq, List.append_assoc, List.cons_append])
      operatorFollows (by omega)
  obtain ⟨fuel', rfl⟩ : ∃ fuel', left = fuel' + 1 :=
    ⟨left - 1, by omega⟩
  have isOperator : lhs.2.peek.kind = operator := by
    simp [lhsParsed.lexemes_eq, nextKind]
  obtain ⟨rhs, rhsParse, rhsParsed⟩ :
      ∃ rhs,
        parseExpression context fuel' operandPrec lhs.2.advance = .ok rhs ∧
          ParsedAs lhs.2.advance rest rhs operandTree :=
    operand fuel' lhs.2.advance rest (lhsParsed.ready ready).advance
      (by simp [lhsParsed.lexemes_eq]) followsHere (by omega)
  refine ⟨combine lhs.1 rhs, fuel', combines.parsedAs lhsParsed
    rhsParsed.of_advance, by omega, ?_⟩
  rw [parses, round fuel' lhs.1 lhs.2 isOperator, rhsParse, Outcome.ok_bind]

/-- Both operands, and a builder call on them. -/
theorem combines_built
    {combine : Nat → Nat × ParserState → Nat × ParserState}
    {combineTrees : AtomTree → AtomTree → AtomTree}
    (lexemes_eq :
      ∀ lhs rhs, (combine lhs rhs).2.lexemes = rhs.2.lexemes)
    (table_eq : ∀ lhs rhs, (combine lhs rhs).2.table = rhs.2.table)
    (built :
      ∀ (lhs : Nat) (rhs : Nat × ParserState),
        rhs.2.store.Invariant →
        lhs < rhs.2.store.nodes.length →
        rhs.1 < rhs.2.store.nodes.length →
        AtomStore.Built rhs.2.store
          ((combine lhs rhs).1, (combine lhs rhs).2.store)
          (combineTrees (rhs.2.store.tree lhs) (rhs.2.store.tree rhs.1))) :
    Combines combine combineTrees where
  parsedAs := by
    intro state lhs rhs lhsTree rhsTree middle rest lhsParsed rhsParsed
    have lhsBuilt := lhsParsed.built
    have rhsBuilt := rhsParsed.built
    have lhsTree_eq := rhsBuilt.tree_old lhsBuilt.invariant lhsBuilt.inside
    have whole :=
      built lhs.1 rhs rhsBuilt.invariant
        (rhsBuilt.growth.inside lhsBuilt.inside) rhsBuilt.inside
    rw [lhsTree_eq, lhsBuilt.tree_eq, rhsBuilt.tree_eq] at whole
    exact ⟨whole.trans (lhsBuilt.growth.trans rhsBuilt.growth),
      (lexemes_eq _ _).trans rhsParsed.lexemes_eq,
      (table_eq _ _).trans (rhsParsed.table_eq.trans lhsParsed.table_eq)⟩

/-- `store_.add(terms)` on the operands of a plus. -/
def addOperands (lhs : Nat) (rhs : Nat × ParserState) : Nat × ParserState :=
  rhs.2.build (rhs.2.store.add [lhs, rhs.1])

/-- `store_.mul(factors)` on the operands of a star. -/
def mulOperands (lhs : Nat) (rhs : Nat × ParserState) : Nat × ParserState :=
  rhs.2.build (rhs.2.store.mul [lhs, rhs.1])

/-- `store_.mul(factors)` on the operands of a slash. -/
def divideOperands (lhs : Nat) (rhs : Nat × ParserState) : Nat × ParserState :=
  mulOperands lhs (invert rhs.2 rhs.1)

theorem combines_add :
    Combines addOperands fun first second => .mkAdd [first, second] := by
  refine combines_built (fun _ _ => rfl) (fun _ _ => rfl) ?_
  intro lhs rhs invariant lhsInside rhsInside
  exact AtomStore.add_built invariant (by simp [lhsInside, rhsInside])

theorem combines_mul :
    Combines mulOperands fun first second => .mkMul [first, second] := by
  refine combines_built (fun _ _ => rfl) (fun _ _ => rfl) ?_
  intro lhs rhs invariant lhsInside rhsInside
  exact AtomStore.mul_built invariant (by simp [lhsInside, rhsInside])

theorem combines_divide :
    Combines divideOperands AtomTree.quotient := by
  refine combines_built (fun _ _ => rfl) (fun _ _ => rfl) ?_
  intro lhs rhs invariant lhsInside rhsInside
  have minusOne := AtomStore.num_built invariant (-1)
  have rhsTree := minusOne.tree_old invariant rhsInside
  have power :=
    AtomStore.pow_built minusOne.invariant (minusOne.growth.inside rhsInside)
      minusOne.inside
  rw [minusOne.tree_eq, rhsTree] at power
  have inverse := power.trans minusOne.growth
  have lhsTree := inverse.tree_old invariant lhsInside
  have inside :
      ∀ factor ∈
          [lhs, ((rhs.2.store.num (-1)).2.pow rhs.1 (rhs.2.store.num (-1)).1).1],
        factor <
          ((rhs.2.store.num (-1)).2.pow rhs.1
            (rhs.2.store.num (-1)).1).2.nodes.length := by
    simp [inverse.inside, inverse.growth.inside lhsInside]
  have product := AtomStore.mul_built inverse.invariant inside
  simp only [List.map_cons, List.map_nil, lhsTree, inverse.tree_eq] at product
  exact product.trans inverse.growth

/-- A plus and its right operand. -/
theorem PrefixParses.plus
    {follows : TokKind → Prop}
    (plusFollows : follows .plus)
    {lexemes operandLexemes : List Lexeme}
    {tree operandTree : AtomTree}
    (reaches : PrefixParses context table 1 follows lexemes tree)
    (operand :
      Parses table (fun fuel => parseExpression context fuel 2) 7 EndsTerm
        operandLexemes operandTree) :
    PrefixParses context table 1 EndsTerm
      (lexemes ++ (.plus, []) :: operandLexemes)
      (.mkAdd [tree, operandTree]) := by
  refine reaches.operator ?_ combines_add plusFollows operand
  intro fuel lhs state isPlus
  simp only [parseOperators, isPlus]
  rfl

/-- A star and its right operand, at the loosest level or inside a term. -/
theorem PrefixParses.star
    {minPrec : Nat}
    (level : minPrec ≤ 2)
    {lexemes operandLexemes : List Lexeme}
    {tree operandTree : AtomTree}
    (reaches : PrefixParses context table minPrec EndsFactor lexemes tree)
    (operand :
      Parses table (fun fuel => parseExpression context fuel 3) 7 EndsFactor
        operandLexemes operandTree) :
    PrefixParses context table minPrec EndsFactor
      (lexemes ++ (.star, []) :: operandLexemes)
      (.mkMul [tree, operandTree]) := by
  refine reaches.operator ?_ combines_mul ⟨nofun, nofun⟩ operand
  intro fuel lhs state isStar
  simp only [parseOperators, isStar]
  simp [level, mulOperands]

/-- A slash and its right operand. -/
theorem PrefixParses.slash
    {minPrec : Nat}
    (level : minPrec ≤ 2)
    {lexemes operandLexemes : List Lexeme}
    {tree operandTree : AtomTree}
    (reaches : PrefixParses context table minPrec EndsFactor lexemes tree)
    (operand :
      Parses table (fun fuel => parseExpression context fuel 3) 7 EndsFactor
        operandLexemes operandTree) :
    PrefixParses context table minPrec EndsFactor
      (lexemes ++ (.slash, []) :: operandLexemes)
      (.quotient tree operandTree) := by
  refine reaches.operator ?_ combines_divide ⟨nofun, nofun⟩ operand
  intro fuel lhs state isSlash
  simp only [parseOperators, isSlash]
  simp [level, divideOperands, mulOperands]

omit [StringHash] in
/-- One operand after another, each behind an operator. -/
theorem chain_reaches
    {Reaches Operand : List Lexeme → AtomTree → Prop}
    {operator : TokKind}
    {combineTrees : AtomTree → AtomTree → AtomTree}
    (step :
      ∀ {lexemes operandLexemes : List Lexeme} {tree operandTree : AtomTree},
        Reaches lexemes tree →
        Operand operandLexemes operandTree →
        Reaches (lexemes ++ (operator, []) :: operandLexemes)
          (combineTrees tree operandTree))
    {operands : List (List Lexeme)}
    {trees : List AtomTree}
    (all : List.Forall₂ Operand operands trees)
    {lexemes : List Lexeme}
    {tree : AtomTree}
    (reaches : Reaches lexemes tree) :
    Reaches
      (lexemes ++ operands.flatMap fun operand => (operator, []) :: operand)
      (trees.foldl combineTrees tree) := by
  induction all generalizing lexemes tree with
  | nil =>
      simpa using reaches
  | cons first _ inductionHypothesis =>
      have later := inductionHypothesis (step reaches first)
      simpa [List.append_assoc] using later

/-- An operand that binds more tightly than the operators of the loop. -/
structure OperandParses
    (context : ParserContext)
    (table : Snapshot)
    (lexemes : List Lexeme)
    (tree : AtomTree) : Prop where
  starts : StartsOperand (nextKind lexemes)
  unary : UnaryParses context table lexemes tree

/-- An operand divided by others, with slashes outside parentheses. -/
def QuotientParses
    (context : ParserContext)
    (table : Snapshot)
    (lexemes : List Lexeme)
    (parts : AtomTree × List AtomTree) : Prop :=
  ∃ first divisors,
    lexemes =
        first ++ divisors.flatMap (fun divisor => (.slash, []) :: divisor) ∧
      OperandParses context table first parts.1 ∧
      List.Forall₂ (OperandParses context table) divisors parts.2

/-- What may stand as a factor of a product, at its beginning or later. -/
structure FactorParses
    (context : ParserContext)
    (table : Snapshot)
    (lexemes : List Lexeme)
    (tree : AtomTree) : Prop where
  starts : StartsOperand (nextKind lexemes)
  first
    {minPrec : Nat} :
    minPrec ≤ 2 →
    PrefixParses context table minPrec EndsFactor lexemes tree
  next
    {minPrec : Nat}
    {before : List Lexeme}
    {product : AtomTree} :
    minPrec ≤ 2 →
    PrefixParses context table minPrec EndsFactor before product →
    PrefixParses context table minPrec EndsFactor
      (before ++ (.star, []) :: lexemes) (.mkMul [product, tree])

/-- What may stand as a term of a sum. -/
structure TermParses
    (context : ParserContext)
    (table : Snapshot)
    (lexemes : List Lexeme)
    (tree : AtomTree) : Prop where
  starts : StartsOperand (nextKind lexemes)
  reaches
    {minPrec : Nat} :
    minPrec ≤ 2 →
    PrefixParses context table minPrec EndsFactor lexemes tree

/-- Slashes group with the operand before them. -/
theorem factor_of_quotient
    {lexemes : List Lexeme}
    {parts : AtomTree × List AtomTree}
    (quotient : QuotientParses context table lexemes parts) :
    FactorParses context table lexemes (AtomTree.divided parts) := by
  obtain ⟨firstTree, divisorTrees⟩ := parts
  obtain ⟨first, divisors, rfl, firstParses, divisorsParse⟩ := quotient
  have nonempty := firstParses.starts.nonempty
  have divides :
      ∀ {minPrec : Nat} {lexemes : List Lexeme} {tree : AtomTree},
        minPrec ≤ 2 →
        PrefixParses context table minPrec EndsFactor lexemes tree →
        PrefixParses context table minPrec EndsFactor
          (lexemes ++
            divisors.flatMap fun divisor => (.slash, []) :: divisor)
          (AtomTree.divided (tree, divisorTrees)) := by
    intro minPrec lexemes tree level reaches
    refine chain_reaches ?_ divisorsParse reaches
    intro lexemes operandLexemes tree operandTree before operand
    exact before.slash level
      (operand_parses operand.starts.nonempty operand.unary)
  refine ⟨?_, ?_, ?_⟩
  · rw [nextKind_append nonempty]
    exact firstParses.starts
  · intro minPrec level
    exact divides level (prefix_of_unary nonempty firstParses.unary minPrec)
  · intro minPrec before product level reaches
    have starred :=
      reaches.star level (operand_parses nonempty firstParses.unary)
    have whole := divides level starred
    rw [AtomTree.divided_mkMul] at whole
    simpa [List.append_assoc] using whole

/-- An operand without a slash. -/
theorem OperandParses.quotient
    {lexemes : List Lexeme}
    {tree : AtomTree}
    (operand : OperandParses context table lexemes tree) :
    QuotientParses context table lexemes (tree, []) :=
  ⟨lexemes, [], by simp, operand, List.Forall₂.nil⟩

/-- A factor may stand alone as a term. -/
theorem FactorParses.term
    {lexemes : List Lexeme}
    {tree : AtomTree}
    (factor : FactorParses context table lexemes tree) :
    TermParses context table lexemes tree :=
  ⟨factor.starts, factor.first⟩

/-- A term may stand alone as an expression. -/
theorem TermParses.expression
    {lexemes : List Lexeme}
    {tree : AtomTree}
    (term : TermParses context table lexemes tree) :
    ExpressionParses context table lexemes tree := by
  refine ⟨term.starts, expression_parses (term.reaches (by decide)) ?_⟩
  intro kind ends
  rcases ends with isParen | isComma | isEnd
  · subst kind
    exact ⟨nofun, nofun⟩
  · subst kind
    exact ⟨nofun, nofun⟩
  · subst kind
    exact ⟨nofun, nofun⟩

omit [StringHash] in
/-- Joined lexemes start as the first of them. -/
theorem starts_joinLexemes
    {separator : TokKind}
    {first : List Lexeme}
    (starts : StartsOperand (nextKind first))
    (others : List (List Lexeme)) :
    StartsOperand (nextKind (joinLexemes separator (first :: others))) := by
  rw [joinLexemes, nextKind_append starts.nonempty]
  exact starts

/-- A product of at least two factors. -/
theorem term_product
    {operands : List (List Lexeme)}
    {trees : List AtomTree}
    (all : List.Forall₂ (FactorParses context table) operands trees)
    (several : 2 ≤ trees.length) :
    TermParses context table (joinLexemes .star operands) (.mkMul trees) := by
  cases all with
  | nil =>
      simp at several
  | @cons first firstTree others otherTrees firstParses othersParse =>
      refine ⟨starts_joinLexemes firstParses.starts others, ?_⟩
      intro minPrec level
      have chain :
          PrefixParses context table minPrec EndsFactor
            (joinLexemes .star (first :: others))
            (otherTrees.foldl
              (fun product factor => .mkMul [product, factor]) firstTree) := by
        refine chain_reaches ?_ othersParse (firstParses.first level)
        intro lexemes operandLexemes tree operandTree before factor
        exact factor.next level before
      cases otherTrees with
      | nil =>
          simp at several
      | cons second rest =>
          rw [List.foldl_cons, AtomTree.foldl_mkMul] at chain
          exact chain

/-- A sum of at least two terms. -/
theorem expression_sum
    {operands : List (List Lexeme)}
    {trees : List AtomTree}
    (all : List.Forall₂ (TermParses context table) operands trees)
    (several : 2 ≤ trees.length) :
    ExpressionParses context table (joinLexemes .plus operands)
      (.mkAdd trees) := by
  have termEnds : ∀ kind, EndsTerm kind → EndsFactor kind := by
    intro kind ends
    rcases ends with isPlus | isParen | isComma | isEnd
    · subst kind
      exact ⟨nofun, nofun⟩
    · subst kind
      exact ⟨nofun, nofun⟩
    · subst kind
      exact ⟨nofun, nofun⟩
    · subst kind
      exact ⟨nofun, nofun⟩
  cases all with
  | nil =>
      simp at several
  | @cons first firstTree others otherTrees firstParses othersParse =>
      cases othersParse with
      | nil =>
          simp at several
      | @cons second secondTree rest restTrees secondParses restParse =>
          have two :=
            (firstParses.reaches (by decide)).plus ⟨nofun, nofun⟩
              (term_parses (secondParses.reaches (by decide)) termEnds)
          have chain :
              PrefixParses context table 1 EndsTerm
                (first ++ (TokKind.plus, []) :: second ++
                  rest.flatMap fun operand => (TokKind.plus, []) :: operand)
                (restTrees.foldl (fun sum term => .mkAdd [sum, term])
                  (.mkAdd [firstTree, secondTree])) := by
            refine chain_reaches ?_ restParse two
            intro lexemes operandLexemes tree operandTree before term
            exact before.plus (Or.inl rfl)
              (term_parses (term.reaches (by decide)) termEnds)
          rw [AtomTree.foldl_mkAdd] at chain
          refine ⟨starts_joinLexemes firstParses.starts (second :: rest), ?_⟩
          have ends : ∀ kind, EndsExpression kind → EndsTerm kind :=
            fun _ ends => Or.inr ends
          simpa [joinLexemes, List.append_assoc] using
            expression_parses chain ends

end Printed

end AtomCore
