import Stocas.Atom.Tokenizer

namespace AtomCore

open SymbolTable (Snapshot Symbol Text)
open NumericaCore (bigIntToString rationalToString)

/-!
# The lexemes of printed text

A lexeme is a token without its position.  `AtomTree.lexemes` lists the lexemes
that the printer writes, and `lexes_render` shows that tokenizing the printed text
gives exactly these, because the printer always ends a word before the next one.
-/

/-- A kind of token with its text. -/
abbrev Lexeme : Type := TokKind × Text

/-- A token without its position. -/
def Token.lexeme (token : Token) : Lexeme :=
  (token.kind, token.text)

/-- The lexemes of a number; a fraction has three. -/
def numberLexemes (value : ℚ) : List Lexeme :=
  (if value.num < 0 then [(TokKind.minus, [])] else []) ++
    (TokKind.number, Nat.toDigits 10 value.num.natAbs) ::
      if value.den = 1 then
        []
      else
        [(TokKind.slash, []), (TokKind.number, Nat.toDigits 10 value.den)]

/-- Lexemes between parentheses. -/
def parenthesized (lexemes : List Lexeme) : List Lexeme :=
  (TokKind.lParen, []) :: (lexemes ++ [(TokKind.rParen, [])])

/-- The parentheses of `wrap_if_needed`. -/
def wrapLexemes
    (tag : AtomTag)
    (minPrec : Nat)
    (lexemes : List Lexeme) :
    List Lexeme :=
  if precedence tag < minPrec then parenthesized lexemes else lexemes

/-- Lists of lexemes with a separator before all but the first. -/
def joinLexemes (separator : TokKind) : List (List Lexeme) → List Lexeme
  | [] => []
  | first :: rest =>
      first ++ rest.flatMap fun lexemes => (separator, []) :: lexemes

namespace AtomTree

mutual

/-- The lexemes of a rendered tree. -/
def lexemes (table : Snapshot) : AtomTree → List Lexeme
  | .num value => numberLexemes value
  | .var symbol => [(.ident, localName table symbol)]
  | .add terms => joinLexemes .plus (wrapLexemesAll table 2 terms)
  | .mul factors => joinLexemes .star (wrapLexemesAll table 3 factors)
  | .pow base exponent =>
      wrapLexemes base.tag 4 (lexemes table base) ++
        (.caret, []) :: wrapLexemes exponent.tag 3 (lexemes table exponent)
  | .func head arguments =>
      (.ident, localName table head) ::
        parenthesized (joinLexemes .comma (wrapLexemesAll table 1 arguments))

/-- The lexemes of every wrapped child. -/
def wrapLexemesAll (table : Snapshot) (minPrec : Nat) :
    List AtomTree → List (List Lexeme)
  | [] => []
  | tree :: rest =>
      wrapLexemes tree.tag minPrec (lexemes table tree) ::
        wrapLexemesAll table minPrec rest

end

/-- The lexemes of a child in a context. -/
def wrappedLexemes
    (table : Snapshot)
    (minPrec : Nat)
    (tree : AtomTree) :
    List Lexeme :=
  wrapLexemes tree.tag minPrec (tree.lexemes table)

@[simp] theorem wrapLexemesAll_eq_map
    (table : Snapshot)
    (minPrec : Nat)
    (trees : List AtomTree) :
    wrapLexemesAll table minPrec trees =
      trees.map (wrappedLexemes table minPrec) := by
  induction trees with
  | nil =>
      rfl
  | cons tree rest inductionHypothesis =>
      simp only [wrapLexemesAll, inductionHypothesis, List.map_cons,
        wrappedLexemes]

/-- The names of a node print as identifiers. -/
def NamedPlainly (table : Snapshot) : AtomTree → Prop
  | .var symbol => IsIdentifier (localName table symbol)
  | .func head _ => IsIdentifier (localName table head)
  | _ => True

end AtomTree

/-- Whatever does not continue its last word may follow a text with lexemes. -/
def Lexes (text : Text) (lexemes : List Lexeme) : Prop :=
  ∀ (rest : Text) (pos : Nat) (tokens : List Token),
    Boundary rest →
    LexesTo rest (pos + text.length) tokens →
    ∃ front,
      LexesTo (text ++ rest) pos (front ++ tokens) ∧
        front.map Token.lexeme = lexemes

theorem lexes_nil : Lexes [] [] := by
  intro rest pos tokens _ later
  exact ⟨[], later, rfl⟩

theorem Lexes.punctuation
    {first : Char}
    {kind : TokKind}
    (isKind : punctuation? first = some kind)
    {text : Text}
    {lexemes : List Lexeme}
    (lexes : Lexes text lexemes) :
    Lexes (first :: text) ((kind, []) :: lexemes) := by
  intro rest pos tokens boundary later
  rw [List.length_cons, Nat.add_comm text.length, ← Nat.add_assoc] at later
  obtain ⟨front, scanned, sameLexemes⟩ := lexes _ _ _ boundary later
  exact ⟨⟨kind, [], pos⟩ :: front, scanned.punctuation isKind,
    by rw [List.map_cons, sameLexemes]; rfl⟩

theorem Lexes.space
    {text : Text}
    {lexemes : List Lexeme}
    (lexes : Lexes text lexemes) :
    Lexes (' ' :: text) lexemes := by
  intro rest pos tokens boundary later
  rw [List.length_cons, Nat.add_comm text.length, ← Nat.add_assoc] at later
  obtain ⟨front, scanned, sameLexemes⟩ := lexes _ _ _ boundary later
  exact ⟨front, scanned.space, sameLexemes⟩

theorem lexes_number
    {digits : Text}
    (nonempty : digits ≠ [])
    (allDigits : ∀ character ∈ digits, character.isDigit = true) :
    Lexes digits [(.number, digits)] := by
  intro rest pos tokens boundary later
  exact ⟨[⟨.number, digits, pos⟩],
    later.number nonempty allDigits boundary, rfl⟩

theorem lexes_ident
    {name : Text}
    (identifier : IsIdentifier name) :
    Lexes name [(.ident, name)] := by
  intro rest pos tokens boundary later
  exact ⟨[⟨.ident, name, pos⟩], later.ident identifier boundary, rfl⟩

/-- A text that starts with no word character may follow a word. -/
private theorem boundary_append
    {text rest : Text}
    (boundary : Boundary text)
    (restBoundary : Boundary rest) :
    Boundary (text ++ rest) := by
  cases text with
  | nil =>
      exact restBoundary
  | cons first others =>
      exact boundary

theorem Lexes.append
    {text other : Text}
    {lexemes others : List Lexeme}
    (lexes : Lexes text lexemes)
    (boundary : Boundary other)
    (otherLexes : Lexes other others) :
    Lexes (text ++ other) (lexemes ++ others) := by
  intro rest pos tokens restBoundary later
  rw [List.length_append, ← Nat.add_assoc] at later
  obtain ⟨back, backScanned, backLexemes⟩ := otherLexes _ _ _ restBoundary later
  obtain ⟨front, frontScanned, frontLexemes⟩ :=
    lexes _ _ _ (boundary_append boundary restBoundary) backScanned
  refine ⟨front ++ back, ?_, ?_⟩
  · simpa only [List.append_assoc] using frontScanned
  · rw [List.map_append, frontLexemes, backLexemes]

/-- Decimal digits lex as one number. -/
theorem lexes_toDigits (value : ℕ) :
    Lexes (Nat.toDigits 10 value) [(.number, Nat.toDigits 10 value)] := by
  apply lexes_number Nat.toDigits_ne_nil
  intro character member
  exact Nat.isDigit_of_mem_toDigits (by decide) (by decide) member

/-- A printed number has the lexemes of a number. -/
theorem lexes_rationalToString (value : ℚ) :
    Lexes (rationalToString value) (numberLexemes value) := by
  have natural := lexes_toDigits value.num.natAbs
  have integer :
      Lexes (bigIntToString value.num)
        ((if value.num < 0 then [(TokKind.minus, [])] else []) ++
          [(TokKind.number, Nat.toDigits 10 value.num.natAbs)]) := by
    rw [bigIntToString]
    split_ifs
    · exact natural.punctuation rfl
    · exact natural
  by_cases isInteger : value.den = 1
  · simpa only [rationalToString, numberLexemes, isInteger, if_true] using integer
  · have denominator : bigIntToString value.den = Nat.toDigits 10 value.den := by
      simp [bigIntToString]
    have slashed :
        Lexes ('/' :: Nat.toDigits 10 value.den)
          [(.slash, []), (.number, Nat.toDigits 10 value.den)] :=
      (lexes_toDigits value.den).punctuation rfl
    have boundary : Boundary ('/' :: Nat.toDigits 10 value.den) := by
      intro character member
      cases member
      rfl
    have whole := integer.append boundary slashed
    simpa [rationalToString, numberLexemes, isInteger, denominator] using whole

/-- Parentheses around a text. -/
theorem Lexes.parenthesized
    {text : Text}
    {lexemes : List Lexeme}
    (lexes : Lexes text lexemes) :
    Lexes ("(".toList ++ text ++ ")".toList)
      (AtomCore.parenthesized lexemes) := by
  have closing : Lexes ")".toList [(.rParen, [])] :=
    lexes_nil.punctuation rfl
  have boundary : Boundary ")".toList := by
    intro character member
    cases member
    rfl
  exact (lexes.append boundary closing).punctuation rfl

theorem Lexes.wrapText
    {text : Text}
    {lexemes : List Lexeme}
    (lexes : Lexes text lexemes)
    (tag : AtomTag)
    (minPrec : Nat) :
    Lexes (AtomCore.wrapText tag minPrec text)
      (wrapLexemes tag minPrec lexemes) := by
  rw [AtomCore.wrapText, wrapLexemes]
  split_ifs
  · exact lexes.parenthesized
  · exact lexes

/-- Texts joined by a separator that ends words. -/
theorem lexes_joinWith
    {separator : Text}
    {kind : TokKind}
    (separates :
      ∀ {text : Text} {lexemes : List Lexeme},
        Lexes text lexemes →
        Lexes (separator ++ text) ((kind, []) :: lexemes))
    (boundary : ∀ text, Boundary (separator ++ text))
    {texts : List Text}
    {lexemes : List (List Lexeme)}
    (all : List.Forall₂ Lexes texts lexemes) :
    Lexes (joinWith separator texts) (joinLexemes kind lexemes) := by
  cases all with
  | nil =>
      exact lexes_nil
  | cons first others =>
      have later :
          ∀ {texts : List Text} {lexemes : List (List Lexeme)},
            List.Forall₂ Lexes texts lexemes →
            Lexes (texts.flatMap fun text => separator ++ text)
                (lexemes.flatMap fun lexemes => (kind, []) :: lexemes) ∧
              Boundary (texts.flatMap fun text => separator ++ text) := by
        intro texts lexemes all
        induction all with
        | nil =>
            exact ⟨lexes_nil, by intro character member; cases member⟩
        | @cons text _ texts _ first _ inductionHypothesis =>
            simp only [List.flatMap_cons]
            refine ⟨(separates first).append inductionHypothesis.2
              inductionHypothesis.1, ?_⟩
            rw [List.append_assoc]
            exact boundary _
      exact first.append (later others).2 (later others).1

/-- Wrapped children lex as they do alone. -/
private theorem lexes_wrapAll
    {table : Snapshot}
    {children : List AtomTree}
    (childLexes :
      ∀ child ∈ children,
        Lexes (child.render table) (child.lexemes table))
    (minPrec : Nat) :
    List.Forall₂ Lexes
      (AtomTree.wrapAll table minPrec children)
      (AtomTree.wrapLexemesAll table minPrec children) := by
  induction children with
  | nil =>
      exact List.Forall₂.nil
  | cons child rest inductionHypothesis =>
      refine List.Forall₂.cons ?_ ?_
      · exact (childLexes child (by simp)).wrapText child.tag minPrec
      · exact inductionHypothesis fun other member =>
          childLexes other (by simp [member])

/-- The printed text of a tree has the lexemes of the tree. -/
theorem lexes_render
    {table : Snapshot}
    {tree : AtomTree}
    (named : tree.Everywhere (AtomTree.NamedPlainly table)) :
    Lexes (tree.render table) (tree.lexemes table) := by
  induction tree with
  | num value =>
      exact lexes_rationalToString value
  | var symbol =>
      exact lexes_ident named.root
  | add terms inductionHypothesis =>
      have all :=
        lexes_wrapAll
          (fun term member =>
            inductionHypothesis term member (named.child member)) 2
      refine lexes_joinWith ?_ ?_ all
      · intro text lexemes lexes
        exact (lexes.space.punctuation rfl).space
      · intro text character member
        cases member
        rfl
  | mul factors inductionHypothesis =>
      have all :=
        lexes_wrapAll
          (fun factor member =>
            inductionHypothesis factor member (named.child member)) 3
      refine lexes_joinWith ?_ ?_ all
      · intro text lexemes lexes
        exact (lexes.space.punctuation rfl).space
      · intro text character member
        cases member
        rfl
  | pow base exponent baseHypothesis exponentHypothesis =>
      have baseLexes :=
        (baseHypothesis (named.child (by simp [AtomTree.children]))).wrapText
          base.tag 4
      have exponentLexes :=
        (exponentHypothesis (named.child (by simp [AtomTree.children]))).wrapText
          exponent.tag 3
      have boundary :
          Boundary
            ('^' :: wrapText exponent.tag 3 (exponent.render table)) := by
        intro character member
        cases member
        rfl
      have whole := baseLexes.append boundary (exponentLexes.punctuation rfl)
      simpa [AtomTree.render, AtomTree.lexemes] using whole
  | func head arguments inductionHypothesis =>
      have all :=
        lexes_wrapAll
          (fun argument member =>
            inductionHypothesis argument member (named.child member)) 1
      have joined :
          Lexes (joinWith ", ".toList (AtomTree.wrapAll table 1 arguments))
            (joinLexemes .comma
              (AtomTree.wrapLexemesAll table 1 arguments)) := by
        refine lexes_joinWith ?_ ?_ all
        · intro text lexemes lexes
          exact lexes.space.punctuation rfl
        · intro text character member
          cases member
          rfl
      have boundary :
          Boundary
            ("(".toList ++
              joinWith ", ".toList (AtomTree.wrapAll table 1 arguments) ++
              ")".toList) := by
        intro character member
        cases member
        rfl
      have whole :=
        (lexes_ident named.root).append boundary joined.parenthesized
      simpa [AtomTree.render, AtomTree.lexemes] using whole

/-- Tokenizing printed text gives its lexemes and the end. -/
theorem tokenize_render
    {table : Snapshot}
    {tree : AtomTree}
    (named : tree.Everywhere (AtomTree.NamedPlainly table)) :
    ∃ tokens,
      tokenize (tree.render table) = .ok tokens ∧
        tokens.map Token.lexeme = tree.lexemes table ++ [(.finish, [])] := by
  obtain ⟨front, scanned, sameLexemes⟩ :=
    lexes_render named [] 0 _ (by intro character member; cases member)
      (lexesTo_nil _)
  rw [List.append_nil] at scanned
  refine ⟨_, scanned _ (Nat.le_refl _), ?_⟩
  rw [List.map_append, sameLexemes]
  rfl

end AtomCore
