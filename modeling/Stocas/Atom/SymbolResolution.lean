import Stocas.Atom.GrammarAcceptance
import Stocas.Atom.TokenVectorSafety
import Stocas.SymbolTable.Interleaving

namespace AtomCore

open SymbolTable (Snapshot Symbol Text)

/-!
# How names of an expression resolve

The parser looks every name up with the call that registers names, and without attributes.
A name that was registered with attributes, anywhere before, makes that call throw.
-/

namespace TokenVector

section Parser

variable [StringHash]

/--
The text is parsed, its names are looked up in order, and those that were registered
before resolve to their symbols.
-/
def ResolvesRegistered
    (context : ParserContext)
    (text : Text)
    (store : AtomStore)
    (table : Snapshot) : Prop :=
  ∃ tokens slot state,
    tokenize text = .ok tokens ∧
      parse context text store table = .ok (slot, state) ∧
      state.resolved.map Prod.fst = identifiers tokens ∧
      ∀ lookup ∈ state.resolved, ∀ id entry,
        table.entries[id]? = some entry →
        entry.qualifiedName =
          SymbolTable.qualify context.namespaceName lookup.1 →
        lookup.2 = ⟨id⟩

omit [StringHash] in
/-- A lookup found the entry that its name had before. -/
theorem Grown.same_entry
    {context : ParserContext}
    {start : Snapshot}
    {state : State}
    (grown : Grown context start state)
    {lookup : Text × Symbol}
    (member : lookup ∈ state.resolved)
    {id : Nat}
    {entry : SymbolTable.Entry}
    (found : start.entries[id]? = some entry)
    (named :
      entry.qualifiedName = SymbolTable.qualify context.namespaceName lookup.1) :
    lookup.2 = ⟨id⟩ ∧ entry.attributes = [] := by
  obtain ⟨-, other, otherFound, otherNamed, plain⟩ := grown.resolved lookup member
  obtain ⟨later, later_eq⟩ := grown.growth
  have inside := (List.getElem?_eq_some_iff.mp found).1
  have foundLater : state.table.entries[id]? = some entry := by
    rw [← later_eq, List.getElem?_append_left inside, found]
  have samePosition :=
    grown.consistent.position_unique foundLater otherFound
      (named.trans otherNamed.symm)
  rw [← samePosition, foundLater, Option.some.injEq] at otherFound
  subst otherFound
  exact ⟨by rw [samePosition], plain⟩

/-- A parse of a valid text ends with a result, unless a name was given attributes. -/
theorem exists_result
    {table : Snapshot}
    (consistent : table.Consistent)
    {context : ParserContext}
    {text : Text}
    (valid : SyntacticallyValid text)
    {tokens : List Token}
    (tokenized : tokenize text = .ok tokens)
    (plain :
      ∀ name ∈ identifiers tokens, ∀ entry ∈ table.entries,
        entry.qualifiedName = SymbolTable.qualify context.namespaceName name →
        entry.attributes = [])
    (store : AtomStore) :
    ∃ slot state,
      parse context text store table = .ok (slot, state) ∧
        Grown context table state ∧
        state.resolved.map Prod.fst = identifiers tokens := by
  have keepsFuel : KeepsFuel (AtomCore.parse context text store table) :=
    parse_keepsFuel text store table
  have accepts :
      Outcome.OnlyThrows (fun error => ∀ message, error ≠ .invalidArgument message)
        (AtomCore.parse context text store table) :=
    parse_accepts valid store table
  have outcomes := parse_outcomes consistent context text store
  generalize parse context text store table = run at outcomes ⊢
  generalize AtomCore.parse context text store table = other at outcomes keepsFuel accepts
  cases outcomes with
  | throws placed =>
      obtain ⟨message, pos, -, error_eq⟩ := placed
      exact absurd error_eq (accepts _ rfl _)
  | @runs input _ _ tokenizedAgain _ context_eq table_eq simulates =>
      rw [tokenized, Except.ok.injEq] at tokenizedAgain
      subst tokenizedAgain
      subst context_eq
      subst table_eq
      cases simulates with
      | ok ends =>
          exact ⟨_, _, rfl, ends.grown, ends.names⟩
      | error expected =>
          cases expected with
          | fuel =>
              exact absurd rfl (keepsFuel _ rfl)
          | syntaxError placed =>
              obtain ⟨message, pos, -, error_eq⟩ := placed
              exact absurd error_eq (accepts _ rfl _)
          | conflict occurs member named attributed =>
              exact absurd (plain _ occurs _ member named) attributed

/-- What a result says about the names of its text. -/
theorem facts_of_result
    {table : Snapshot}
    (consistent : table.Consistent)
    {context : ParserContext}
    {text : Text}
    {store : AtomStore}
    {slot : Nat}
    {state : State}
    (parsed : parse context text store table = .ok (slot, state)) :
    Grown context table state := by
  have outcomes := parse_outcomes consistent context text store
  rw [parsed] at outcomes
  generalize AtomCore.parse context text store table = other at outcomes
  cases outcomes with
  | runs _ _ context_eq table_eq simulates =>
      subst context_eq
      subst table_eq
      cases simulates with
      | ok ends =>
          exact ends.grown

/--
A valid text is parsed, with the registered names resolved, exactly when none of its names
was registered with attributes before.
-/
theorem parse_resolves_iff
    {table : Snapshot}
    (registered : table.Reachable)
    (context : ParserContext)
    {text : Text}
    (valid : SyntacticallyValid text)
    (store : AtomStore) :
    ResolvesRegistered context text store table ↔
      ∀ tokens, tokenize text = .ok tokens →
        ∀ name ∈ identifiers tokens, ∀ entry ∈ table.entries,
          entry.qualifiedName = SymbolTable.qualify context.namespaceName name →
          entry.attributes = [] := by
  constructor
  · rintro ⟨tokens, slot, state, tokenized, parsed, names, -⟩ others tokenizedAgain
      name occurs entry member named
    rw [tokenized, Except.ok.injEq] at tokenizedAgain
    subst others
    have grown := facts_of_result registered.consistent parsed
    rw [← names] at occurs
    obtain ⟨lookup, lookupMember, rfl⟩ := List.mem_map.mp occurs
    obtain ⟨id, found⟩ := List.mem_iff_getElem?.mp member
    exact (grown.same_entry lookupMember found named).2
  · intro plain
    obtain ⟨dialect, lexemes, expression, ⟨tokens, tokenized, tokens_eq⟩, reads⟩ :=
      id valid
    obtain ⟨slot, state, parsed, grown, names⟩ :=
      exists_result registered.consistent valid tokenized (plain tokens tokenized) store
    refine ⟨tokens, slot, state, tokenized, parsed, names, ?_⟩
    intro lookup member id entry found named
    exact (grown.same_entry member found named).1

end Parser

/-- `f(x)` is a valid text. -/
theorem syntacticallyValid_call :
    SyntacticallyValid "f(x)".toList := by
  have arguments :
      ∀ argument ∈ [([(TokKind.ident, "x".toList)], Expression.var "x".toList)],
        Reads .documented .sum argument.1 argument.2 := by
    simpa using .term (.factor (.unsigned (.base .var)))
  have call :
      Reads .documented .primary
        ((.ident, "f".toList) ::
          parenthesized (joinLexemes .comma [[(.ident, "x".toList)]]))
        (.call "f".toList [.var "x".toList]) :=
    .call arguments
  exact ⟨.documented, _, _, ⟨_, rfl, rfl⟩,
    .term (.factor (.unsigned (.base call)))⟩

/-- A call of a name that another namespace has as symmetric. -/
theorem parse_resolves_iff_call :
    @ResolvesRegistered ⟨fun _ => 0⟩ ⟨"test".toList, ⟨[], 0⟩⟩ "f(x)".toList .empty
        (symmetricTable "other".toList "f".toList) ↔
      ∀ tokens, tokenize "f(x)".toList = .ok tokens →
        ∀ name ∈ identifiers tokens,
          ∀ entry ∈ (symmetricTable "other".toList "f".toList).entries,
            entry.qualifiedName = SymbolTable.qualify "test".toList name →
            entry.attributes = [] :=
  @parse_resolves_iff ⟨fun _ => 0⟩ _ (reachable_symmetricTable _ _)
    ⟨"test".toList, ⟨[], 0⟩⟩ _ syntacticallyValid_call .empty

/-- A call of a symmetric name is valid, and it is not parsed. -/
theorem parse_symmetric_call :
    SyntacticallyValid "f(x)".toList ∧
      (symmetricTable "test".toList "f".toList).Reachable ∧
      ¬@ResolvesRegistered ⟨fun _ => 0⟩ ⟨"test".toList, ⟨[], 0⟩⟩ "f(x)".toList .empty
        (symmetricTable "test".toList "f".toList) := by
  refine ⟨syntacticallyValid_call, reachable_symmetricTable _ _, ?_⟩
  rintro ⟨tokens, slot, state, -, parsed, -⟩
  have fails :
      (@parse ⟨fun _ => 0⟩ ⟨"test".toList, ⟨[], 0⟩⟩ "f(x)".toList .empty
        (symmetricTable "test".toList "f".toList)).isOk = false := by
    decide +kernel
  rw [parsed] at fails
  cases fails

end TokenVector

end AtomCore
