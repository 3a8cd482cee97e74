import Mathlib
import Stocas.Atom.Printer
import Stocas.Library.Outcome

namespace AtomCore

open SymbolTable (Text)

/-!
# The tokenizer

The tokenizer scans a text from left to right.  Characters are classified as in
the `"C"` locale.  Its laws are read from right to left: when the rest of a text
lexes to some tokens, one more lexeme in front of it adds one more token, as long
as the rest does not continue a word.
-/

/-- `TokKind`. -/
inductive TokKind where
  | number
  | ident
  | plus
  | minus
  | star
  | slash
  | caret
  | lParen
  | rParen
  | comma
  | finish
  deriving Repr, DecidableEq

/-- `Token`; the text is empty unless it is a number or an identifier. -/
structure Token where
  kind : TokKind
  text : Text
  pos : Nat
  deriving Repr, DecidableEq

/-- What a parse throws; `outOfFuel` is the bound of this model only. -/
inductive ParseError where
  | invalidArgument (message : Text)
  | symbolTable (error : SymbolTable.TableError)
  | outOfFuel
  deriving Repr, DecidableEq

/-- `fail`: the message with the byte offset. -/
def fail {α : Type} (message : Text) (pos : Nat) : Except ParseError α :=
  .error (.invalidArgument
    (message ++ " at position ".toList ++ (toString pos).toList))

/-- `std::isspace`. -/
def isSpace (character : Char) : Bool :=
  character == ' ' || ('\t' ≤ character && character ≤ '\r')

/-- The kind of a one-character token. -/
def punctuation? : Char → Option TokKind
  | '+' => some .plus
  | '-' => some .minus
  | '*' => some .star
  | '/' => some .slash
  | '^' => some .caret
  | '(' => some .lParen
  | ')' => some .rParen
  | ',' => some .comma
  | _ => none

/-- The scanning loop of `tokenize`, which reads a character each time. -/
def tokenizeFuel : Nat → Text → Nat → Except ParseError (List Token)
  | 0, _, pos => .ok [⟨.finish, [], pos⟩]
  | _ + 1, [], pos => .ok [⟨.finish, [], pos⟩]
  | fuel + 1, first :: rest, pos =>
      if isSpace first then
        tokenizeFuel fuel rest (pos + 1)
      else if first.isDigit then
        let digits := first :: rest.takeWhile Char.isDigit
        (tokenizeFuel fuel (rest.dropWhile Char.isDigit)
            (pos + digits.length)).map
          fun tokens => ⟨.number, digits, pos⟩ :: tokens
      else if isNameStart first then
        let name := first :: rest.takeWhile isNameChar
        (tokenizeFuel fuel (rest.dropWhile isNameChar)
            (pos + name.length)).map
          fun tokens => ⟨.ident, name, pos⟩ :: tokens
      else
        match punctuation? first with
        | none => fail "unexpected character".toList pos
        | some kind =>
            (tokenizeFuel fuel rest (pos + 1)).map
              fun tokens => ⟨kind, [], pos⟩ :: tokens

/-- `tokenize`. -/
def tokenize (src : Text) : Except ParseError (List Token) :=
  tokenizeFuel src.length src 0

/-- With any fuel that lets it finish, the loop scans these tokens. -/
def LexesTo (text : Text) (pos : Nat) (tokens : List Token) : Prop :=
  ∀ fuel, text.length ≤ fuel → tokenizeFuel fuel text pos = .ok tokens

/-- The text does not continue a number or a name. -/
def Boundary (text : Text) : Prop :=
  ∀ character ∈ text.head?, isNameChar character = false

theorem lexesTo_nil (pos : Nat) :
    LexesTo [] pos [⟨.finish, [], pos⟩] := by
  intro fuel _
  cases fuel <;> rfl

/-- A space adds no token. -/
theorem LexesTo.space
    {rest : Text}
    {pos : Nat}
    {tokens : List Token}
    (later : LexesTo rest (pos + 1) tokens) :
    LexesTo (' ' :: rest) pos tokens := by
  intro fuel enough
  cases fuel with
  | zero =>
      cases enough
  | succ fuel =>
      have isBlank : isSpace ' ' = true := by decide
      simp only [tokenizeFuel, isBlank, if_true]
      exact later fuel (Nat.le_of_succ_le_succ enough)

/-- A punctuation character adds its token. -/
theorem LexesTo.punctuation
    {first : Char}
    {kind : TokKind}
    (isKind : punctuation? first = some kind)
    {rest : Text}
    {pos : Nat}
    {tokens : List Token}
    (later : LexesTo rest (pos + 1) tokens) :
    LexesTo (first :: rest) pos (⟨kind, [], pos⟩ :: tokens) := by
  intro fuel enough
  cases fuel with
  | zero =>
      cases enough
  | succ fuel =>
      have notWord :
          isSpace first = false ∧ first.isDigit = false ∧
            isNameStart first = false := by
        unfold punctuation? at isKind
        split at isKind <;> first | decide | cases isKind
      have scanned := later fuel (Nat.le_of_succ_le_succ enough)
      simp only [tokenizeFuel, notWord, Bool.false_eq_true, if_false, isKind,
        scanned, Except.map]

/-- A word splits off a text that does not continue it. -/
private theorem span_word
    {inside : Char → Bool}
    {word rest : Text}
    (all : ∀ character ∈ word, inside character = true)
    (stops : ∀ character ∈ rest.head?, inside character = false) :
    (word ++ rest).takeWhile inside = word ∧
      (word ++ rest).dropWhile inside = rest := by
  have stopsHere :
      rest.takeWhile inside = [] ∧ rest.dropWhile inside = rest := by
    cases rest with
    | nil =>
        exact ⟨rfl, rfl⟩
    | cons first later =>
        have notInside := stops first rfl
        simp [List.takeWhile, List.dropWhile, notInside]
  rw [List.takeWhile_append_of_pos all, List.dropWhile_append_of_pos all,
    stopsHere.1, stopsHere.2, List.append_nil]
  exact ⟨rfl, rfl⟩

/-- Blanks do not stand inside names. -/
private theorem not_isSpace_of_isNameChar
    {character : Char}
    (inName : isNameChar character = true) :
    isSpace character = false := by
  by_contra blank
  simp only [isNameChar, isSpace, Char.isAlphanum, Char.isAlpha, Char.isUpper,
    Char.isLower, Char.isDigit, Char.le_def, UInt32.le_iff_toNat_le,
    Bool.not_eq_false, Bool.or_eq_true, Bool.and_eq_true, decide_eq_true_eq,
    beq_iff_eq] at inName blank
  rcases blank with same | control
  · subst character
    revert inName
    decide
  · have newline : '\r'.val.toNat = 13 := rfl
    rcases inName with name | same
    · have sameCode : character.toNat = character.val.toNat := rfl
      simp at name
      omega
    · subst character
      revert control
      decide

/-- Names do not start with digits. -/
private theorem not_isDigit_of_isNameStart
    {character : Char}
    (starts : isNameStart character = true) :
    character.isDigit = false := by
  by_contra digit
  simp only [isNameStart, Char.isAlpha, Char.isUpper,
    Char.isLower, Char.isDigit, UInt32.le_iff_toNat_le,
    Bool.not_eq_false, Bool.or_eq_true, Bool.and_eq_true, decide_eq_true_eq,
    beq_iff_eq] at starts digit
  rcases starts with alpha | same
  · simp at alpha digit
    omega
  · subst character
    revert digit
    decide

/-- A decimal numeral adds its token. -/
theorem LexesTo.number
    {digits : Text}
    (nonempty : digits ≠ [])
    (allDigits : ∀ character ∈ digits, character.isDigit = true)
    {rest : Text}
    (boundary : Boundary rest)
    {pos : Nat}
    {tokens : List Token}
    (later : LexesTo rest (pos + digits.length) tokens) :
    LexesTo (digits ++ rest) pos (⟨.number, digits, pos⟩ :: tokens) := by
  cases digits with
  | nil =>
      exact absurd rfl nonempty
  | cons first others =>
      intro fuel enough
      cases fuel with
      | zero =>
          cases enough
      | succ fuel =>
          have firstDigit := allDigits first (by simp)
          have notBlank : isSpace first = false :=
            not_isSpace_of_isNameChar (by
              simp [isNameChar, Char.isAlphanum, firstDigit])
          have stops :
              ∀ character ∈ rest.head?, character.isDigit = false := by
            intro character member
            have notName := boundary character member
            simp only [isNameChar, Char.isAlphanum, Bool.or_eq_false_iff]
              at notName
            exact notName.1.2
          obtain ⟨taken, dropped⟩ :=
            @span_word _ others rest
              (fun character member => allDigits character (by simp [member]))
              stops
          simp only [List.cons_append, List.length_cons,
            List.length_append] at enough
          have scanned := later fuel (by omega)
          simp only [List.cons_append, tokenizeFuel, notBlank,
            Bool.false_eq_true, if_false, firstDigit, if_true, taken, dropped,
            scanned, Except.map]

/-- A name adds its token. -/
theorem LexesTo.ident
    {name : Text}
    (identifier : IsIdentifier name)
    {rest : Text}
    (boundary : Boundary rest)
    {pos : Nat}
    {tokens : List Token}
    (later : LexesTo rest (pos + name.length) tokens) :
    LexesTo (name ++ rest) pos (⟨.ident, name, pos⟩ :: tokens) := by
  cases name with
  | nil =>
      exact identifier.elim
  | cons first others =>
      obtain ⟨starts, continues⟩ := identifier
      intro fuel enough
      cases fuel with
      | zero =>
          cases enough
      | succ fuel =>
          have inName : isNameChar first = true := by
            simp only [isNameStart, Bool.or_eq_true] at starts
            rcases starts with alpha | underscore
            · simp [isNameChar, Char.isAlphanum, alpha]
            · simp [isNameChar, underscore]
          have notOther : isSpace first = false ∧ first.isDigit = false :=
            ⟨not_isSpace_of_isNameChar inName, not_isDigit_of_isNameStart starts⟩
          obtain ⟨taken, dropped⟩ := span_word continues boundary
          simp only [List.cons_append, List.length_cons,
            List.length_append] at enough
          have scanned := later fuel (by omega)
          simp only [List.cons_append, tokenizeFuel, notOther,
            Bool.false_eq_true, if_false, starts, if_true, taken, dropped,
            scanned, Except.map]

/-- A numeral is a string of decimal digits. -/
def IsNumeral (text : Text) : Prop :=
  text ≠ [] ∧ ∀ character ∈ text, character.isDigit = true

/-- The text of a token is what its kind asks for. -/
def Spelled : TokKind → Text → Prop
  | .number, text => IsNumeral text
  | .ident, text => IsIdentifier text
  | _, text => text = []

/-- The end is the last token only, and the others are spelled right. -/
structure Scanned (tokens : List Token) : Prop where
  shape :
    ∃ front pos,
      tokens = front ++ [⟨.finish, [], pos⟩] ∧
        ∀ token ∈ front, token.kind ≠ .finish ∧ Spelled token.kind token.text

/-- One token more in front of the others. -/
theorem Scanned.cons
    {token : Token}
    {tokens : List Token}
    (inner : token.kind ≠ .finish)
    (spelled : Spelled token.kind token.text)
    (later : Scanned tokens) :
    Scanned (token :: tokens) := by
  obtain ⟨front, pos, tokens_eq, holds⟩ := later
  subst tokens_eq
  refine ⟨token :: front, pos, rfl, ?_⟩
  intro other member
  rcases List.mem_cons.mp member with isHead | isLater
  · subst other
    exact ⟨inner, spelled⟩
  · exact holds other isLater

/-- Every token that was scanned is spelled right. -/
theorem Scanned.spelled
    {tokens : List Token}
    (scanned : Scanned tokens) :
    ∀ token ∈ tokens, Spelled token.kind token.text := by
  obtain ⟨front, pos, tokens_eq, holds⟩ := scanned
  subst tokens_eq
  intro token member
  rcases List.mem_append.mp member with inFront | isLast
  · exact (holds token inFront).2
  · rw [List.mem_singleton.mp isLast]
    rfl

/-- The kinds of punctuation are neither words nor the end. -/
theorem spelled_of_punctuation
    {first : Char}
    {kind : TokKind}
    (isKind : punctuation? first = some kind) :
    kind ≠ .finish ∧ Spelled kind [] := by
  unfold punctuation? at isKind
  split at isKind <;> cases isKind <;> exact ⟨TokKind.noConfusion, rfl⟩

/-- The scanning loop writes tokens of this shape. -/
theorem tokenizeFuel_scanned
    {fuel : Nat}
    {text : Text}
    {pos : Nat}
    {tokens : List Token}
    (tokenized : tokenizeFuel fuel text pos = .ok tokens) :
    Scanned tokens := by
  have single :
      ∀ {pos : Nat}, Scanned [(⟨.finish, [], pos⟩ : Token)] :=
    ⟨[], _, rfl, nofun⟩
  induction fuel generalizing text pos tokens with
  | zero =>
      cases tokenized
      exact single
  | succ fuel inductionHypothesis =>
      have more :
          ∀ (head : Token) {text : Text} {pos : Nat},
            head.kind ≠ .finish ∧ Spelled head.kind head.text →
            ((tokenizeFuel fuel text pos).map fun tokens => head :: tokens) =
              .ok tokens →
            Scanned tokens := by
        intro head text pos isInner scanned
        obtain ⟨others, later, tokens_eq⟩ := Outcome.map_eq_ok.mp scanned
        subst tokens_eq
        exact (inductionHypothesis later).cons isInner.1 isInner.2
      cases text with
      | nil =>
          cases tokenized
          exact single
      | cons first rest =>
          simp only [tokenizeFuel] at tokenized
          split_ifs at tokenized with isBlank isDigit isStart
          · exact inductionHypothesis tokenized
          · refine more _ ⟨TokKind.noConfusion, ?_⟩ tokenized
            refine ⟨List.cons_ne_nil _ _, ?_⟩
            intro character member
            rcases List.mem_cons.mp member with isFirst | isLater
            · rwa [isFirst]
            · exact List.all_eq_true.mp List.all_takeWhile character isLater
          · refine more _ ⟨TokKind.noConfusion, ?_⟩ tokenized
            refine ⟨isStart, ?_⟩
            intro character member
            exact List.all_eq_true.mp List.all_takeWhile character member
          · cases isKind : punctuation? first with
            | none =>
                rw [isKind] at tokenized
                cases tokenized
            | some kind =>
                rw [isKind] at tokenized
                exact more _ (spelled_of_punctuation isKind) tokenized

end AtomCore
