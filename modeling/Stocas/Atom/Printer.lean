import Stocas.Atom.Store

namespace AtomCore

open SymbolTable (Snapshot Symbol Text)
open NumericaCore (rationalToString)

/-!
# The printer

The printer reads nothing of an atom but its tree, and the names of its symbols
in the symbol table.
-/

/-- `precedence`: binding power, loosest to tightest. -/
def precedence : AtomTag → Nat
  | .add => 1
  | .mul => 2
  | .pow => 3
  | .num | .var | .func => 4

/-- The text after the last `::`, if there is one. -/
def afterLastSeparator : Text → Option Text
  | [] => none
  | first :: rest =>
      match afterLastSeparator rest with
      | some after => some after
      | none =>
          match first, rest with
          | ':', ':' :: after => some after
          | _, _ => none

/-- `local_name`: the registered name without its namespace. -/
def localName (table : Snapshot) (symbol : Symbol) : Text :=
  let qualified := SymbolTable.symbolName table symbol
  (afterLastSeparator qualified).getD qualified

/-- The loop over rendered children, with a separator before all but the first. -/
def joinWith (separator : Text) : List Text → Text
  | [] => []
  | first :: rest => first ++ rest.flatMap fun text => separator ++ text

/-- The parentheses of `wrap_if_needed`. -/
def wrapText (tag : AtomTag) (minPrec : Nat) (text : Text) : Text :=
  if precedence tag < minPrec then
    "(".toList ++ text ++ ")".toList
  else
    text

namespace AtomTree

mutual

/-- `render`. -/
def render (table : Snapshot) : AtomTree → Text
  | .num value => rationalToString value
  | .var symbol => localName table symbol
  | .add terms => joinWith " + ".toList (wrapAll table 2 terms)
  | .mul factors => joinWith " * ".toList (wrapAll table 3 factors)
  | .pow base exponent =>
      wrapText base.tag 4 (render table base) ++ "^".toList ++
        wrapText exponent.tag 3 (render table exponent)
  | .func head arguments =>
      localName table head ++ "(".toList ++
        joinWith ", ".toList (wrapAll table 1 arguments) ++ ")".toList

/-- `wrap_if_needed` on every child. -/
def wrapAll (table : Snapshot) (minPrec : Nat) : List AtomTree → List Text
  | [] => []
  | tree :: rest =>
      wrapText tree.tag minPrec (render table tree) ::
        wrapAll table minPrec rest

end

/-- `wrap_if_needed`. -/
def wrapIfNeeded (table : Snapshot) (tree : AtomTree) (minPrec : Nat) : Text :=
  wrapText tree.tag minPrec (tree.render table)

@[simp] theorem wrapAll_eq_map
    (table : Snapshot)
    (minPrec : Nat)
    (trees : List AtomTree) :
    wrapAll table minPrec trees =
      trees.map fun tree => wrapIfNeeded table tree minPrec := by
  induction trees with
  | nil =>
      rfl
  | cons tree rest inductionHypothesis =>
      simp only [wrapAll, inductionHypothesis, List.map_cons, wrapIfNeeded]

end AtomTree

/-- `print`. -/
def AtomStore.print
    (store : AtomStore)
    (table : Snapshot)
    (index : Nat) : Text :=
  (store.tree index).render table

/-- `[A-Za-z_]`. -/
def isNameStart (character : Char) : Bool :=
  character.isAlpha || character == '_'

/-- `[A-Za-z0-9_]`. -/
def isNameChar (character : Char) : Bool :=
  character.isAlphanum || character == '_'

/-- `[A-Za-z_][A-Za-z0-9_]*`. -/
def IsIdentifier : Text → Prop
  | [] => False
  | first :: rest =>
      isNameStart first = true ∧
        ∀ character ∈ rest, isNameChar character = true

/-- An identifier registered without attributes in a namespace. -/
def PlainSymbol
    (table : Snapshot)
    (namespaceName : Text)
    (symbol : Symbol)
    (name : Text) : Prop :=
  IsIdentifier name ∧
    ∃ entry,
      table.entries[symbol.id]? = some entry ∧
        entry.qualifiedName = SymbolTable.qualify namespaceName name ∧
        entry.attributes = []

/-- Every character of an identifier may stand inside a name. -/
theorem IsIdentifier.isNameChar
    {name : Text}
    (identifier : IsIdentifier name) :
    ∀ character ∈ name, AtomCore.isNameChar character = true := by
  cases name with
  | nil =>
      exact identifier.elim
  | cons first rest =>
      obtain ⟨starts, continues⟩ := identifier
      intro character member
      rcases List.mem_cons.mp member with same | later
      · subst character
        simp only [isNameStart, Bool.or_eq_true] at starts
        simp only [AtomCore.isNameChar, Char.isAlphanum, Bool.or_eq_true]
        rcases starts with alpha | underscore
        · exact Or.inl (Or.inl alpha)
        · exact Or.inr underscore
      · exact continues character later

/-- A text without colons has no separator. -/
private theorem afterLastSeparator_of_noColon
    {text : Text}
    (noColon : ':' ∉ text) :
    afterLastSeparator text = none := by
  induction text with
  | nil =>
      rfl
  | cons first rest inductionHypothesis =>
      simp only [List.mem_cons, not_or] at noColon
      have later := inductionHypothesis noColon.2
      simp only [afterLastSeparator, later]
      split
      · exact absurd rfl noColon.1
      · rfl

/-- The last separator of a text is that of any suffix that has one. -/
private theorem afterLastSeparator_append
    {suffix after : Text}
    (found : afterLastSeparator suffix = some after)
    (text : Text) :
    afterLastSeparator (text ++ suffix) = some after := by
  induction text with
  | nil =>
      exact found
  | cons first rest inductionHypothesis =>
      simp only [List.cons_append, afterLastSeparator, inductionHypothesis]

/-- The printer shows a plain symbol by its identifier. -/
theorem PlainSymbol.localName_eq
    {table : Snapshot}
    {namespaceName name : Text}
    {symbol : Symbol}
    (plain : PlainSymbol table namespaceName symbol name) :
    localName table symbol = name := by
  obtain ⟨identifier, entry, found, named, -⟩ := plain
  have noColon : ':' ∉ name := by
    intro member
    have colon := identifier.isNameChar ':' member
    exact absurd colon (by decide)
  have noSeparator := afterLastSeparator_of_noColon noColon
  have afterOne : afterLastSeparator (':' :: name) = none := by
    rw [afterLastSeparator, noSeparator]
    intro after _ shape
    exact noColon (by simp [shape])
  have separated : afterLastSeparator (':' :: ':' :: name) = some name := by
    rw [afterLastSeparator, afterOne]
  have qualified :
      afterLastSeparator (SymbolTable.qualify namespaceName name) =
        some name := by
    have whole :=
      afterLastSeparator_append separated namespaceName
    simpa [SymbolTable.qualify] using whole
  simp [localName, SymbolTable.symbolName, found, named, qualified]

end AtomCore
