import Stocas.Atom.PrintedParse
import Stocas.Atom.PrintedValue

namespace AtomCore

open SymbolTable (Snapshot Symbol Text)
open NumericaCore (bigIntOfString)

/-!
# The grammar of expressions

`Reads` is the grammar that the parser's header documents, over lexemes: `^` is
right-associative and binds tightest, then a unary sign, then `*`, `/` and
implicit multiplication from the left, then `+` and `-` from the left.  The
dialect of `parse_unary` changes one rule: a minus and a numeral that start a
unary expression make one literal, also as the base of a power.
-/

/-- What a text means, before any atom is built. -/
inductive Expression where
  | number (value : ℤ)
  | var (name : Text)
  | call (name : Text) (arguments : List Expression)
  | power (base exponent : Expression)
  | negation (operand : Expression)
  | product (left right : Expression)
  | quotient (left right : Expression)
  | sum (left right : Expression)
  | difference (left right : Expression)

namespace Expression

variable {K : Type*} [Field K]

open Classical in
/-- Division in the field, which a zero divisor leaves undefined. -/
noncomputable def divide (dividend divisor : K) : Option K :=
  if divisor = 0 then none else some (dividend / divisor)

mutual

/-- The value of an expression whose names stand for these symbols. -/
noncomputable def value
    (meaning : Interpretation K)
    (symbols : Text → Symbol) :
    Expression → Option K
  | .number integer => some (integer : K)
  | .var name => some (meaning.variableValue (symbols name))
  | .call name arguments =>
      (valueAll meaning symbols arguments).bind
        (meaning.function (symbols name))
  | .power base exponent =>
      (value meaning symbols base).bind fun base =>
        (value meaning symbols exponent).bind (meaning.power base)
  | .negation operand => (value meaning symbols operand).map fun operand => -operand
  | .product left right =>
      (value meaning symbols left).bind fun left =>
        (value meaning symbols right).map fun right => left * right
  | .quotient left right =>
      (value meaning symbols left).bind fun left =>
        (value meaning symbols right).bind (divide left)
  | .sum left right =>
      (value meaning symbols left).bind fun left =>
        (value meaning symbols right).map fun right => left + right
  | .difference left right =>
      (value meaning symbols left).bind fun left =>
        (value meaning symbols right).map fun right => left - right

/-- The values of several expressions. -/
noncomputable def valueAll
    (meaning : Interpretation K)
    (symbols : Text → Symbol) :
    List Expression → Option (List K)
  | [] => some []
  | expression :: rest =>
      (value meaning symbols expression).bind fun first =>
        (valueAll meaning symbols rest).map fun others => first :: others

end

attribute [simp] value valueAll

end Expression

/-- The grammar as it is documented, or with negative literals. -/
inductive Dialect where
  | documented
  | negativeLiterals
  deriving DecidableEq

/-- The levels of the grammar, the tightest first. -/
inductive Level where
  | primary
  | power
  | unary
  | product
  | sum
  deriving DecidableEq

/-- The last lexeme is a name. -/
def EndsInName (lexemes : List Lexeme) : Prop :=
  ∃ name, lexemes.getLast? = some (.ident, name)

/-- No name takes the parenthesis that comes next for that of a call. -/
def NoCall (lexemes : List Lexeme) (next : TokKind) : Prop :=
  EndsInName lexemes → next ≠ .lParen

/-- The lexemes start with a numeral and a caret. -/
def RaisesNumeral : List Lexeme → Prop
  | (.number, _) :: (.caret, _) :: _ => True
  | _ => False

/-- The lexemes can be derived at this level, with this meaning. -/
inductive Reads (dialect : Dialect) : Level → List Lexeme → Expression → Prop where
  | number
      {text : Text} :
      IsNumeral text →
      Reads dialect .primary [(.number, text)] (.number (bigIntOfString text))
  | var
      {name : Text} :
      Reads dialect .primary [(.ident, name)] (.var name)
  | call
      {name : Text}
      {arguments : List (List Lexeme × Expression)} :
      (∀ argument ∈ arguments, Reads dialect .sum argument.1 argument.2) →
      Reads dialect .primary
        ((.ident, name) ::
          parenthesized (joinLexemes .comma (arguments.map Prod.fst)))
        (.call name (arguments.map Prod.snd))
  | parenthesized
      {lexemes : List Lexeme}
      {inner : Expression} :
      Reads dialect .sum lexemes inner →
      Reads dialect .primary (parenthesized lexemes) inner
  | base
      {lexemes : List Lexeme}
      {base : Expression} :
      Reads dialect .primary lexemes base →
      Reads dialect .power lexemes base
  | caret
      {baseLexemes exponentLexemes : List Lexeme}
      {base exponent : Expression} :
      Reads dialect .primary baseLexemes base →
      Reads dialect .unary exponentLexemes exponent →
      Reads dialect .power
        (baseLexemes ++ (.caret, []) :: exponentLexemes)
        (.power base exponent)
  | unsigned
      {lexemes : List Lexeme}
      {operand : Expression} :
      Reads dialect .power lexemes operand →
      Reads dialect .unary lexemes operand
  | plus
      {lexemes : List Lexeme}
      {operand : Expression} :
      Reads dialect .unary lexemes operand →
      Reads dialect .unary ((.plus, []) :: lexemes) operand
  | minus
      {lexemes : List Lexeme}
      {operand : Expression} :
      Reads dialect .unary lexemes operand →
      (dialect = .negativeLiterals → ¬RaisesNumeral lexemes) →
      Reads dialect .unary ((.minus, []) :: lexemes) (.negation operand)
  | raisedLiteral
      {text : Text}
      {exponentLexemes : List Lexeme}
      {exponent : Expression} :
      dialect = .negativeLiterals →
      IsNumeral text →
      Reads dialect .unary exponentLexemes exponent →
      Reads dialect .unary
        ((.minus, []) :: (.number, text) :: (.caret, []) :: exponentLexemes)
        (.power (.negation (.number (bigIntOfString text))) exponent)
  | factor
      {lexemes : List Lexeme}
      {factor : Expression} :
      Reads dialect .unary lexemes factor →
      Reads dialect .product lexemes factor
  | times
      {leftLexemes rightLexemes : List Lexeme}
      {left right : Expression} :
      Reads dialect .product leftLexemes left →
      Reads dialect .unary rightLexemes right →
      Reads dialect .product
        (leftLexemes ++ (.star, []) :: rightLexemes)
        (.product left right)
  | divide
      {leftLexemes rightLexemes : List Lexeme}
      {left right : Expression} :
      Reads dialect .product leftLexemes left →
      Reads dialect .unary rightLexemes right →
      Reads dialect .product
        (leftLexemes ++ (.slash, []) :: rightLexemes)
        (.quotient left right)
  | adjacent
      {leftLexemes rightLexemes : List Lexeme}
      {left right : Expression} :
      Reads dialect .product leftLexemes left →
      Reads dialect .power rightLexemes right →
      NoCall leftLexemes (nextKind rightLexemes) →
      Reads dialect .product (leftLexemes ++ rightLexemes) (.product left right)
  | term
      {lexemes : List Lexeme}
      {term : Expression} :
      Reads dialect .product lexemes term →
      Reads dialect .sum lexemes term
  | add
      {leftLexemes rightLexemes : List Lexeme}
      {left right : Expression} :
      Reads dialect .sum leftLexemes left →
      Reads dialect .product rightLexemes right →
      Reads dialect .sum
        (leftLexemes ++ (.plus, []) :: rightLexemes)
        (.sum left right)
  | subtract
      {leftLexemes rightLexemes : List Lexeme}
      {left right : Expression} :
      Reads dialect .sum leftLexemes left →
      Reads dialect .product rightLexemes right →
      Reads dialect .sum
        (leftLexemes ++ (.minus, []) :: rightLexemes)
        (.difference left right)

/-- The first lexeme comes from the left part unless that is empty. -/
theorem EndsInName.of_append
    {left right : List Lexeme}
    (nonempty : right ≠ [])
    (ends : EndsInName (left ++ right)) :
    EndsInName right := by
  obtain ⟨name, last⟩ := ends
  rw [List.getLast?_append_of_ne_nil left nonempty] at last
  exact ⟨name, last⟩

/-- What ends in no name as a whole ends in none in its last part. -/
theorem NoCall.of_append
    {left right : List Lexeme}
    {next : TokKind}
    (noCall : NoCall (left ++ right) next)
    (nonempty : right ≠ []) :
    NoCall right next := by
  rintro ⟨name, last⟩
  refine noCall ⟨name, ?_⟩
  rw [List.getLast?_append_of_ne_nil _ nonempty, last]

/-- Lexemes that do not end in a name make no call. -/
theorem noCall_of_getLast
    {lexemes : List Lexeme}
    {kind : TokKind}
    {text : Text}
    (last : lexemes.getLast? = some (kind, text))
    (notName : kind ≠ .ident)
    (next : TokKind) :
    NoCall lexemes next := by
  rintro ⟨name, isName⟩
  rw [last, Option.some.injEq, Prod.mk.injEq] at isName
  exact absurd isName.1 notName

/-- A lexeme of joined lists is in one of them, or a separator. -/
theorem mem_joinLexemes
    {separator : TokKind}
    {parts : List (List Lexeme)}
    {lexeme : Lexeme}
    (member : lexeme ∈ joinLexemes separator parts) :
    (∃ part ∈ parts, lexeme ∈ part) ∨ lexeme = (separator, []) := by
  cases parts with
  | nil =>
      exact absurd member List.not_mem_nil
  | cons first rest =>
      simp only [joinLexemes, List.mem_append, List.mem_flatMap,
        List.mem_cons] at member
      rcases member with inFirst | ⟨part, partMember, same | inPart⟩
      · exact Or.inl ⟨first, by simp, inFirst⟩
      · exact Or.inr same
      · exact Or.inl ⟨part, by simp [partMember], inPart⟩

/-- What is between parentheses ends in no name. -/
theorem noCall_parenthesized
    (front lexemes : List Lexeme)
    (next : TokKind) :
    NoCall (front ++ parenthesized lexemes) next := by
  have last :
      (front ++ parenthesized lexemes).getLast? = some (.rParen, []) := by
    rw [parenthesized, ← List.cons_append, ← List.append_assoc]
    exact List.getLast?_concat
  exact noCall_of_getLast last TokKind.noConfusion next

namespace Reads

variable {dialect : Dialect}

/-- No expression is empty. -/
theorem nonempty
    {level : Level}
    {lexemes : List Lexeme}
    {expression : Expression}
    (reads : Reads dialect level lexemes expression) :
    lexemes ≠ [] := by
  induction reads with
  | base _ inductionHypothesis
  | unsigned _ inductionHypothesis
  | factor _ inductionHypothesis
  | term _ inductionHypothesis =>
      exact inductionHypothesis
  | adjacent _ _ _ inductionHypothesis =>
      simp [inductionHypothesis]
  | _ =>
      simp [AtomCore.parenthesized]

/-- A primary starts with one of its three kinds. -/
theorem starts_primary
    {lexemes : List Lexeme}
    {expression : Expression}
    (reads : Reads dialect .primary lexemes expression) :
    startsPrimary (nextKind lexemes) = true := by
  cases reads <;> rfl

/-- A power starts as its base does. -/
theorem starts_power
    {lexemes : List Lexeme}
    {expression : Expression}
    (reads : Reads dialect .power lexemes expression) :
    startsPrimary (nextKind lexemes) = true := by
  cases reads with
  | base primary =>
      exact primary.starts_primary
  | caret primary exponent =>
      rw [nextKind_append primary.nonempty]
      exact primary.starts_primary

/-- An expression starts with a primary or a sign. -/
theorem starts
    {level : Level}
    {lexemes : List Lexeme}
    {expression : Expression}
    (reads : Reads dialect level lexemes expression) :
    startsPrimary (nextKind lexemes) = true ∨
      nextKind lexemes = .plus ∨ nextKind lexemes = .minus := by
  induction reads with
  | number | var | call | parenthesized =>
      exact Or.inl rfl
  | plus =>
      exact Or.inr (Or.inl rfl)
  | minus | raisedLiteral =>
      exact Or.inr (Or.inr rfl)
  | base _ inductionHypothesis
  | unsigned _ inductionHypothesis
  | factor _ inductionHypothesis
  | term _ inductionHypothesis =>
      exact inductionHypothesis
  | caret left _ inductionHypothesis
  | times left _ inductionHypothesis
  | divide left _ inductionHypothesis
  | adjacent left _ _ inductionHypothesis
  | add left _ inductionHypothesis
  | subtract left _ inductionHypothesis =>
      rw [nextKind_append left.nonempty]
      exact inductionHypothesis

/-- A primary that starts with a numeral is the numeral. -/
theorem primary_numeral
    {lexemes : List Lexeme}
    {expression : Expression}
    (reads : Reads dialect .primary lexemes expression)
    (isNumber : nextKind lexemes = .number) :
    ∃ text,
      IsNumeral text ∧ lexemes = [(.number, text)] ∧
        expression = .number (bigIntOfString text) := by
  cases reads with
  | number numeral =>
      exact ⟨_, numeral, rfl, rfl⟩
  | var | call | parenthesized =>
      cases isNumber

/-- A numeral that no caret follows is a whole unary expression. -/
theorem unary_numeral
    {lexemes : List Lexeme}
    {expression : Expression}
    (reads : Reads dialect .unary lexemes expression)
    (isNumber : nextKind lexemes = .number)
    (notRaised : ¬RaisesNumeral lexemes) :
    ∃ text,
      IsNumeral text ∧ lexemes = [(.number, text)] ∧
        expression = .number (bigIntOfString text) := by
  cases reads with
  | unsigned power =>
      cases power with
      | base primary =>
          exact primary.primary_numeral isNumber
      | caret primary exponent =>
          rw [nextKind_append primary.nonempty] at isNumber
          obtain ⟨text, -, lexemes_eq, -⟩ := primary.primary_numeral isNumber
          subst lexemes_eq
          exact absurd trivial notRaised
  | plus | minus | raisedLiteral =>
      cases isNumber

/-- The end is no part of an expression. -/
theorem ne_finish
    {level : Level}
    {lexemes : List Lexeme}
    {expression : Expression}
    (reads : Reads dialect level lexemes expression) :
    ∀ lexeme ∈ lexemes, lexeme.1 ≠ .finish := by
  induction reads with
  | number | var =>
      simp
  | @call _ arguments _ inductionHypothesis =>
      have inside :
          ∀ lexeme ∈ joinLexemes .comma (arguments.map Prod.fst),
            lexeme.1 ≠ .finish := by
        intro lexeme member
        rcases mem_joinLexemes member with ⟨part, partMember, lexemeMember⟩ | same
        · obtain ⟨argument, argumentMember, rfl⟩ := List.mem_map.mp partMember
          exact inductionHypothesis argument argumentMember lexeme lexemeMember
        · subst lexeme
          exact TokKind.noConfusion
      simpa [AtomCore.parenthesized, or_imp, forall_and] using inside
  | parenthesized _ inductionHypothesis =>
      simpa [AtomCore.parenthesized, or_imp, forall_and] using inductionHypothesis
  | base _ inductionHypothesis
  | unsigned _ inductionHypothesis
  | factor _ inductionHypothesis
  | term _ inductionHypothesis =>
      exact inductionHypothesis
  | plus _ inductionHypothesis
  | minus _ _ inductionHypothesis
  | raisedLiteral _ _ _ inductionHypothesis =>
      simpa using inductionHypothesis
  | caret _ _ leftHypothesis rightHypothesis
  | times _ _ leftHypothesis rightHypothesis
  | divide _ _ leftHypothesis rightHypothesis
  | adjacent _ _ _ leftHypothesis rightHypothesis
  | add _ _ leftHypothesis rightHypothesis
  | subtract _ _ leftHypothesis rightHypothesis =>
      simpa [or_imp, forall_and] using And.intro leftHypothesis rightHypothesis

end Reads

end AtomCore
