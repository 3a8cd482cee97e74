import Stocas.Atom.PrintedOperators

namespace AtomCore

open SymbolTable (Snapshot Symbol Text)
open NumericaCore (bigIntOfString)

/-!
# Printing and parsing back

`print_parses` says what parsing a printed atom gives, for every atom with plain
names and no sums or products of fewer than two children.  Where all numbers are
integers this is the atom itself, in its own slot.
-/

namespace AtomTree

/-- A node that the printer can write: plain names, and operands to join. -/
def Printable (table : Snapshot) (namespaceName : Text) : AtomTree → Prop
  | .num _ => True
  | .var symbol => ∃ name, PlainSymbol table namespaceName symbol name
  | .add children => 2 ≤ children.length
  | .mul children => 2 ≤ children.length
  | .pow _ _ => True
  | .func head _ => ∃ name, PlainSymbol table namespaceName head name

/-- Printable nodes print as identifiers. -/
theorem Printable.namedPlainly
    {table : Snapshot}
    {namespaceName : Text}
    {tree : AtomTree}
    (printable : tree.Printable table namespaceName) :
    tree.NamedPlainly table := by
  cases tree with
  | num | add | mul | pow =>
      trivial
  | var symbol =>
      obtain ⟨name, plain⟩ := printable
      have identifier := plain.1
      rwa [← plain.localName_eq] at identifier
  | func head arguments =>
      obtain ⟨name, plain⟩ := printable
      have identifier := plain.1
      rwa [← plain.localName_eq] at identifier

end AtomTree

section RoundTrip

variable [StringHash] {context : ParserContext} {table : Snapshot}

/-- The lexemes of an integer. -/
def integerLexemes (value : ℤ) : List Lexeme :=
  (if value < 0 then [(TokKind.minus, [])] else []) ++
    [(TokKind.number, Nat.toDigits 10 value.natAbs)]

/-- An integer, with its sign, may be the base of a power. -/
theorem base_integer
    (value : ℤ) :
    BaseParses context table (integerLexemes value) (.num value) := by
  rw [integerLexemes]
  split_ifs with negative
  · have magnitude : (value : ℚ) = -(value.natAbs : ℚ) := by
      have same : value = -(value.natAbs : ℤ) := by omega
      rw [← Int.cast_natCast, ← Int.cast_neg, ← same]
    rw [magnitude]
    exact base_negative value.natAbs
  · have magnitude : (value : ℚ) = (value.natAbs : ℚ) := by
      have same : value = (value.natAbs : ℤ) := by omega
      rw [← Int.cast_natCast, ← same]
    rw [magnitude]
    exact base_of_primary (primary_number value.natAbs)

omit [StringHash] in
theorem starts_integer
    (value : ℤ) :
    StartsOperand (nextKind (integerLexemes value)) := by
  rw [integerLexemes]
  split_ifs
  · exact Or.inl rfl
  · exact Or.inr rfl

/-- What may be the base of a power is an operand. -/
theorem BaseParses.operand
    {lexemes : List Lexeme}
    {tree : AtomTree}
    (base : BaseParses context table lexemes tree)
    (starts : StartsOperand (nextKind lexemes)) :
    OperandParses context table lexemes tree :=
  ⟨starts, base.alone⟩

/-- A primary is an operand. -/
theorem PrimaryParses.operand
    {lexemes : List Lexeme}
    {tree : AtomTree}
    (primary : PrimaryParses context table lexemes tree) :
    OperandParses context table lexemes tree :=
  ⟨Or.inr primary.starts, unary_of_primary primary⟩

/-- A power takes the part of its exponent before the first slash. -/
theorem QuotientParses.raised
    {baseLexemes exponentLexemes : List Lexeme}
    {base : AtomTree}
    {parts : AtomTree × List AtomTree}
    (starts : StartsOperand (nextKind baseLexemes))
    (baseParses : BaseParses context table baseLexemes base)
    (exponent : QuotientParses context table exponentLexemes parts) :
    QuotientParses context table
      (baseLexemes ++ (.caret, []) :: exponentLexemes)
      (.pow base parts.1, parts.2) := by
  obtain ⟨first, divisors, rfl, firstParses, divisorsParse⟩ := exponent
  refine ⟨baseLexemes ++ (.caret, []) :: first, divisors, by simp, ?_,
    divisorsParse⟩
  refine ⟨?_, baseParses.raised firstParses.unary⟩
  rw [nextKind_append starts.nonempty]
  exact starts

/-- A quotient may be divided by an operand in front of it. -/
theorem QuotientParses.divides
    {lexemes operandLexemes : List Lexeme}
    {tree : AtomTree}
    {parts : AtomTree × List AtomTree}
    (operand : OperandParses context table operandLexemes tree)
    (quotient : QuotientParses context table lexemes parts) :
    QuotientParses context table
      (operandLexemes ++ (.slash, []) :: lexemes)
      (tree, parts.1 :: parts.2) := by
  obtain ⟨first, divisors, rfl, firstParses, divisorsParse⟩ := quotient
  exact ⟨operandLexemes, first :: divisors, by simp, operand,
    List.Forall₂.cons firstParses divisorsParse⟩

/-- How the printed form of a tree is parsed in each place. -/
structure PrintedParses
    (context : ParserContext)
    (table : Snapshot)
    (tree : AtomTree) : Prop where
  expression :
    ExpressionParses context table (tree.lexemes table) tree.reparse
  term :
    2 ≤ precedence tree.tag →
    TermParses context table (tree.lexemes table) tree.reparse
  quotient :
    3 ≤ precedence tree.tag →
    QuotientParses context table (tree.lexemes table) tree.slashParts
  base :
    4 ≤ precedence tree.tag →
    tree.fraction? = none →
    BaseParses context table (tree.lexemes table) tree.reparse

namespace PrintedParses

variable {tree : AtomTree}

/-- What is parsed as an operand or quotient is parsed in every place. -/
theorem of_quotient
    (quotient :
      QuotientParses context table (tree.lexemes table) tree.slashParts)
    (base :
      4 ≤ precedence tree.tag →
      tree.fraction? = none →
      BaseParses context table (tree.lexemes table) tree.reparse) :
    PrintedParses context table tree :=
  have factor := factor_of_quotient quotient
  ⟨factor.term.expression, fun _ => factor.term, fun _ => quotient, base⟩

/-- Leaves and calls are primaries. -/
theorem of_primary
    (primary :
      PrimaryParses context table (tree.lexemes table) tree.reparse)
    (noSlash : tree.slashParts = (tree.reparse, [])) :
    PrintedParses context table tree := by
  refine of_quotient ?_ fun _ _ => base_of_primary primary
  rw [noSlash]
  exact primary.operand.quotient

/-- A term of a sum, in parentheses where it needs them. -/
theorem wrappedTerm
    (parses : PrintedParses context table tree) :
    TermParses context table (tree.wrappedLexemes table 2) tree.reparse := by
  rw [AtomTree.wrappedLexemes, wrapLexemes]
  split_ifs with loose
  · have operand := (primary_parenthesized parses.expression).operand
    exact (factor_of_quotient operand.quotient).term
  · exact parses.term (Nat.le_of_not_lt loose)

/-- A factor or exponent, in parentheses where it needs them. -/
theorem wrappedQuotient
    (parses : PrintedParses context table tree) :
    QuotientParses context table (tree.wrappedLexemes table 3)
      tree.slashParts := by
  rw [AtomTree.wrappedLexemes, wrapLexemes]
  split_ifs with loose
  · have operand := (primary_parenthesized parses.expression).operand
    have noSlash : tree.slashParts = (tree.reparse, []) := by
      cases tree with
      | add | mul =>
          rfl
      | num | var | pow | func =>
          simp [precedence, AtomTree.tag] at loose
    rw [noSlash]
    exact operand.quotient
  · exact parses.quotient (Nat.le_of_not_lt loose)

/-- The base of a power that is no fraction. -/
theorem wrappedBase
    (parses : PrintedParses context table tree)
    (noFraction : tree.fraction? = none) :
    BaseParses context table (tree.wrappedLexemes table 4) tree.reparse ∧
      StartsOperand (nextKind (tree.wrappedLexemes table 4)) := by
  rw [AtomTree.wrappedLexemes, wrapLexemes]
  split_ifs with loose
  · exact ⟨base_of_primary (primary_parenthesized parses.expression),
      Or.inr rfl⟩
  · exact ⟨parses.base (Nat.le_of_not_lt loose) noFraction,
      parses.expression.starts⟩

/-- Arguments need no parentheses. -/
theorem argument
    (parses : PrintedParses context table tree) :
    ExpressionParses context table (tree.wrappedLexemes table 1)
      tree.reparse := by
  have tight : ¬precedence tree.tag < 1 := by
    cases tree <;> simp [precedence, AtomTree.tag]
  rw [AtomTree.wrappedLexemes, wrapLexemes, if_neg tight]
  exact parses.expression

end PrintedParses

omit [StringHash] in
/-- A property of each child, for the printed children together. -/
private theorem forall₂_children
    {Operand : List Lexeme → AtomTree → Prop}
    {minPrec : Nat}
    {children : List AtomTree}
    (each :
      ∀ child ∈ children,
        Operand (child.wrappedLexemes table minPrec) child.reparse) :
    List.Forall₂ Operand
      (AtomTree.wrapLexemesAll table minPrec children)
      (AtomTree.reparseAll children) := by
  rw [AtomTree.wrapLexemesAll_eq_map, AtomTree.reparseAll_eq_map,
    List.forall₂_map_left_iff, List.forall₂_map_right_iff,
    List.forall₂_same]
  exact each

/-- A printed number. -/
theorem printed_number
    (value : ℚ) :
    PrintedParses context table (.num value) := by
  by_cases isInteger : value.den = 1
  · have integer : (value.num : ℚ) = value := by
      exact Rat.coe_int_num_of_den_eq_one isInteger
    have lexemes_eq :
        (AtomTree.num value).lexemes table = integerLexemes value.num := by
      simp [AtomTree.lexemes, numberLexemes, integerLexemes, isInteger]
    have noSlash : (AtomTree.num value).slashParts = (.num value, []) := by
      simp [AtomTree.slashParts, isInteger]
    have reparse_eq : (AtomTree.num value).reparse = .num value := by
      rw [AtomTree.reparse, noSlash]
      rfl
    have base : BaseParses context table (integerLexemes value.num) (.num value) := by
      have parses : BaseParses context table _ _ := base_integer value.num
      rwa [integer] at parses
    refine .of_quotient ?_ ?_
    · rw [noSlash, lexemes_eq]
      exact (base.operand (starts_integer _)).quotient
    · intro _ _
      rwa [lexemes_eq, reparse_eq]
  · have lexemes_eq :
        (AtomTree.num value).lexemes table =
          integerLexemes value.num ++
            (.slash, []) :: [(.number, Nat.toDigits 10 value.den)] := by
      simp [AtomTree.lexemes, numberLexemes, integerLexemes, isInteger]
    have slashed :
        (AtomTree.num value).slashParts =
          (.num value.num, [.num value.den]) := by
      simp [AtomTree.slashParts, isInteger]
    have numerator : BaseParses context table _ _ := base_integer value.num
    have denominator : PrimaryParses context table _ _ :=
      primary_number value.den
    refine .of_quotient ?_ ?_
    · rw [slashed, lexemes_eq]
      exact denominator.operand.quotient.divides
        (numerator.operand (starts_integer _))
    · intro _ noFraction
      simp [AtomTree.fraction?, isInteger] at noFraction

/-- A printed power. -/
theorem printed_power
    {base exponent : AtomTree}
    (baseParses : PrintedParses context table base)
    (exponentParses : PrintedParses context table exponent) :
    PrintedParses context table (.pow base exponent) := by
  refine .of_quotient ?_ ?_
  · cases fraction : base.fraction? with
    | none =>
        obtain ⟨parses, starts⟩ := baseParses.wrappedBase fraction
        have raised := exponentParses.wrappedQuotient.raised starts parses
        simpa [AtomTree.lexemes, AtomTree.slashParts, fraction,
          AtomTree.wrappedLexemes, AtomTree.reparse] using raised
    | some parts =>
        -- The caret belongs to the denominator, which stands next to it.
        cases base with
        | num value =>
            have isFraction : value.den ≠ 1 := by
              intro isInteger
              simp [AtomTree.fraction?, isInteger] at fraction
            have denominator : PrimaryParses context table _ _ :=
              primary_number value.den
            have raised :=
              exponentParses.wrappedQuotient.raised (Or.inr rfl)
                (base_of_primary denominator)
            have numerator : BaseParses context table _ _ :=
              base_integer value.num
            have whole :=
              raised.divides (numerator.operand (starts_integer _))
            simpa [AtomTree.lexemes, AtomTree.slashParts, AtomTree.fraction?,
              isFraction, AtomTree.wrappedLexemes, wrapLexemes, precedence,
              AtomTree.tag, numberLexemes, integerLexemes] using whole
        | var | add | mul | pow | func =>
            cases fraction
  · intro tight
    simp [precedence, AtomTree.tag] at tight

/-- Every printed tree is parsed as its `reparse`. -/
theorem printed_parses
    (consistent : table.Consistent)
    {tree : AtomTree}
    (printable :
      tree.Everywhere (AtomTree.Printable table context.namespaceName)) :
    PrintedParses context table tree := by
  induction tree with
  | num value =>
      exact printed_number value
  | var symbol =>
      obtain ⟨name, plain⟩ := printable.root
      refine .of_primary ?_ rfl
      rw [AtomTree.lexemes, plain.localName_eq]
      exact primary_variable consistent plain
  | add terms inductionHypothesis =>
      have all :
          List.Forall₂ (TermParses context table)
            (AtomTree.wrapLexemesAll table 2 terms)
            (AtomTree.reparseAll terms) :=
        forall₂_children fun term member =>
          (inductionHypothesis term member (printable.child member)).wrappedTerm
      have several : 2 ≤ (AtomTree.reparseAll terms).length := by
        rw [AtomTree.reparseAll_eq_map, List.length_map]
        exact printable.root
      have notTighter : ∀ {level : Nat}, 2 ≤ level → ¬level ≤ precedence .add := by
        intro level loose tight
        exact absurd (loose.trans tight) (by decide)
      exact ⟨expression_sum all several, fun tight => (notTighter le_rfl tight).elim,
        fun tight => (notTighter (by decide) tight).elim,
        fun tight => (notTighter (by decide) tight).elim⟩
  | mul factors inductionHypothesis =>
      have all :
          List.Forall₂ (FactorParses context table)
            (AtomTree.wrapLexemesAll table 3 factors)
            (AtomTree.reparseAll factors) :=
        forall₂_children fun factor member =>
          factor_of_quotient
            (inductionHypothesis factor member
              (printable.child member)).wrappedQuotient
      have several : 2 ≤ (AtomTree.reparseAll factors).length := by
        rw [AtomTree.reparseAll_eq_map, List.length_map]
        exact printable.root
      have term := term_product all several
      have notTighter : ∀ {level : Nat}, 3 ≤ level → ¬level ≤ precedence .mul := by
        intro level loose tight
        exact absurd (loose.trans tight) (by decide)
      exact ⟨term.expression, fun _ => term,
        fun tight => (notTighter le_rfl tight).elim,
        fun tight => (notTighter (by decide) tight).elim⟩
  | pow base exponent baseHypothesis exponentHypothesis =>
      exact printed_power
        (baseHypothesis (printable.child (by simp [AtomTree.children])))
        (exponentHypothesis (printable.child (by simp [AtomTree.children])))
  | func head arguments inductionHypothesis =>
      obtain ⟨name, plain⟩ := printable.root
      have all :
          List.Forall₂ (ExpressionParses context table)
            (AtomTree.wrapLexemesAll table 1 arguments)
            (AtomTree.reparseAll arguments) :=
        forall₂_children fun argument member =>
          (inductionHypothesis argument member
            (printable.child member)).argument
      refine .of_primary ?_ rfl
      rw [AtomTree.lexemes, plain.localName_eq]
      exact primary_call consistent plain all

/-- `parse` on a text with the lexemes of an expression. -/
theorem parse_lexemes
    {text : Text}
    {tokens : List Token}
    (tokenized : tokenize text = .ok tokens)
    {lexemes : List Lexeme}
    (lexemes_eq : tokens.map Token.lexeme = lexemes ++ [(.finish, [])])
    {tree : AtomTree}
    (expression : ExpressionParses context table lexemes tree)
    {store : AtomStore}
    (invariant : store.Invariant) :
    ∃ result,
      parse context text store table = .ok result ∧
        AtomStore.Built store (result.1, result.2.store) tree ∧
        result.2.table = table := by
  have length_eq := congrArg List.length lexemes_eq
  rw [List.length_map, List.length_append, List.length_singleton] at length_eq
  have positive := List.length_pos_iff.mpr expression.starts.nonempty
  obtain ⟨result, parses, parsed⟩ :
      ∃ result,
        parseExpression context (parserFuel tokens.length) 1
            { tokens := tokens, store := store, table := table } =
          .ok result ∧
        ParsedAs { tokens := tokens, store := store, table := table }
          [(.finish, [])] result tree := by
    refine expression.parses _ _ _ ⟨invariant, rfl⟩ lexemes_eq
      (Or.inr (Or.inr rfl)) ?_
    rw [parserFuel, length_eq]
    omega
  have atEnd : result.2.peek.kind = .finish := by
    simp [parsed.lexemes_eq, nextKind]
  have several : tokens.length ≠ 1 := by omega
  refine ⟨(result.1, result.2.advance), ?_, parsed.built, parsed.table_eq⟩
  simp only [parse, tokenized, Outcome.ok_bind, several, if_false, parseAll,
    parses, ParserState.expect, atEnd, if_true]

/-- Parsing a printed atom gives its `reparse`, whatever its numbers are. -/
theorem print_parses
    (consistent : table.Consistent)
    {store : AtomStore}
    (invariant : store.Invariant)
    {index : Nat}
    (printable :
      (store.tree index).Everywhere
        (AtomTree.Printable table context.namespaceName)) :
    ∃ result,
      parse context (store.print table index) store table = .ok result ∧
        AtomStore.Built store (result.1, result.2.store)
          (store.tree index).reparse ∧
        result.2.table = table := by
  obtain ⟨tokens, tokenized, lexemes_eq⟩ :=
    tokenize_render (printable.imp fun _ here => here.namedPlainly)
  exact parse_lexemes tokenized lexemes_eq
    (printed_parses consistent printable).expression invariant

end RoundTrip

end AtomCore
