import Mathlib.Data.List.Sort

namespace SymbolTable

/-!
# The process-wide symbol table

Symbols are interned by their qualified name `namespace::name`.  The table is
append-only: a published entry is never changed, and an identifier is the
position of its entry.  This module models one call of `get_symbol` at a time,
on the snapshot that is current when the call is made.
-/

/-- A character string of the source, as its list of characters. -/
abbrev Text := List Char

/-- `Symbol`: an interned handle, identified by its table-internal id. -/
structure Symbol where
  id : Nat
  deriving Repr, DecidableEq

/-- `SymbolAttribute`, in declaration order. -/
inductive SymbolAttribute where
  | symmetric
  | antisymmetric
  | linear
  deriving Repr, DecidableEq

/-- The value of an attribute as an `int`. -/
def SymbolAttribute.value : SymbolAttribute → Nat
  | .symmetric => 0
  | .antisymmetric => 1
  | .linear => 2

/-- The part of `std::source_location` that an error message reads. -/
structure SourceLocation where
  fileName : Text
  line : Nat
  deriving Repr, DecidableEq

/-- One registration. -/
structure Entry where
  qualifiedName : Text
  attributes : List SymbolAttribute
  location : SourceLocation
  deriving Repr, DecidableEq

/-- `Snapshot`: the entries and the index of their qualified names. -/
structure Snapshot where
  entries : List Entry
  indexByQualifiedName : List (Text × Nat)
  deriving Repr, DecidableEq

/-- The table before any registration. -/
def Snapshot.empty : Snapshot where
  entries := []
  indexByQualifiedName := []

/-- The exceptions that the table's functions throw. -/
inductive TableError where
  | logicError (message : Text)
  | outOfRange
  deriving Repr, DecidableEq

/-- `same_attributes`: equal up to order, compared through sorted copies. -/
def sameAttributes (requested existing : List SymbolAttribute) : Bool :=
  let byValue (left right : SymbolAttribute) : Prop := left.value ≤ right.value
  requested.length == existing.length &&
    requested.insertionSort byValue == existing.insertionSort byValue

/-- `throw_conflict`'s message, which names the first registration. -/
def conflictMessage (qualified : Text) (existing : Entry) : Text :=
  "symbol_table: '".toList ++ qualified ++
    "' redefined with conflicting attributes (originally registered at ".toList ++
    existing.location.fileName ++ ":".toList ++
    (toString existing.location.line).toList ++ ")".toList

/-- `qualify`: the namespace and the name joined by `::`. -/
def qualify (namespaceName name : Text) : Text :=
  namespaceName ++ "::".toList ++ name

/-- The check made on an entry that already exists. -/
def Snapshot.validate
    (snapshot : Snapshot)
    (qualified : Text)
    (id : Nat)
    (attributes : List SymbolAttribute) :
    Except TableError Nat :=
  match snapshot.entries[id]? with
  | none => .error .outOfRange
  | some existing =>
      if sameAttributes attributes existing.attributes then
        .ok id
      else
        .error (.logicError (conflictMessage qualified existing))

/-- `GlobalTable::insert_or_validate`, under the writer lock. -/
def Snapshot.insertOrValidate
    (current : Snapshot)
    (qualified : Text)
    (attributes : List SymbolAttribute)
    (location : SourceLocation) :
    Except TableError (Nat × Snapshot) :=
  match current.indexByQualifiedName.lookup qualified with
  | some id =>
      (current.validate qualified id attributes).map fun found =>
        (found, current)
  | none =>
      let id := current.entries.length
      .ok (id,
        { entries :=
            current.entries ++
              [{ qualifiedName := qualified
                 attributes := attributes
                 location := location }]
          indexByQualifiedName :=
            (qualified, id) :: current.indexByQualifiedName })

/-- `get_symbol`: the lookup, and the registration when it fails. -/
def getSymbol
    (snapshot : Snapshot)
    (namespaceName name : Text)
    (attributes : List SymbolAttribute)
    (location : SourceLocation) :
    Except TableError (Symbol × Snapshot) :=
  let qualified := qualify namespaceName name
  match snapshot.indexByQualifiedName.lookup qualified with
  | some id =>
      (snapshot.validate qualified id attributes).map fun found =>
        (⟨found⟩, snapshot)
  | none =>
      (snapshot.insertOrValidate qualified attributes location).map
        fun result => (⟨result.1⟩, result.2)

/-- `symbol_name`; the empty string stands for the `out_of_range` it throws. -/
def symbolName (snapshot : Snapshot) (symbol : Symbol) : Text :=
  match snapshot.entries[symbol.id]? with
  | none => []
  | some entry => entry.qualifiedName

/-- `symbol_attributes`; the empty list stands for the `out_of_range` it throws. -/
def symbolAttributes
    (snapshot : Snapshot)
    (symbol : Symbol) :
    List SymbolAttribute :=
  match snapshot.entries[symbol.id]? with
  | none => []
  | some entry => entry.attributes

/-- The index holds exactly the positions of the registered names. -/
def Snapshot.Consistent (snapshot : Snapshot) : Prop :=
  ∀ qualified id,
    snapshot.indexByQualifiedName.lookup qualified = some id ↔
      ∃ entry,
        snapshot.entries[id]? = some entry ∧
          entry.qualifiedName = qualified

/-- Snapshots published by some sequence of `get_symbol` calls. -/
inductive Snapshot.Reachable : Snapshot → Prop where
  | empty :
      Reachable .empty
  | getSymbol
      {snapshot published : Snapshot}
      {namespaceName name : Text}
      {attributes : List SymbolAttribute}
      {location : SourceLocation}
      {symbol : Symbol} :
      Reachable snapshot →
      getSymbol snapshot namespaceName name attributes location =
        .ok (symbol, published) →
      Reachable published

/-- The attribute check accepts a registration repeated without attributes. -/
@[simp] theorem sameAttributes_nil :
    sameAttributes [] [] = true :=
  rfl

/--
Everything a successful call can do: resolve a registered name and leave the
table alone, or append a new name.
-/
theorem getSymbol_cases
    {snapshot published : Snapshot}
    {namespaceName name : Text}
    {attributes : List SymbolAttribute}
    {location : SourceLocation}
    {symbol : Symbol}
    (returned :
      getSymbol snapshot namespaceName name attributes location =
        .ok (symbol, published)) :
    (∃ entry,
      snapshot.indexByQualifiedName.lookup (qualify namespaceName name) =
          some symbol.id ∧
        snapshot.entries[symbol.id]? = some entry ∧
        sameAttributes attributes entry.attributes = true ∧
        published = snapshot) ∨
      (snapshot.indexByQualifiedName.lookup (qualify namespaceName name) =
          none ∧
        symbol.id = snapshot.entries.length ∧
        published =
          { entries :=
              snapshot.entries ++
                [{ qualifiedName := qualify namespaceName name
                   attributes := attributes
                   location := location }]
            indexByQualifiedName :=
              (qualify namespaceName name, snapshot.entries.length) ::
                snapshot.indexByQualifiedName }) := by
  unfold getSymbol at returned
  cases found :
      snapshot.indexByQualifiedName.lookup (qualify namespaceName name) with
  | none =>
      simp only [found, Snapshot.insertOrValidate, Except.map,
        Except.ok.injEq, Prod.mk.injEq] at returned
      exact Or.inr ⟨rfl, by rw [← returned.1], returned.2.symm⟩
  | some id =>
      simp only [found, Snapshot.validate] at returned
      cases entryShape : snapshot.entries[id]? with
      | none =>
          simp [entryShape, Except.map] at returned
      | some entry =>
          by_cases same : sameAttributes attributes entry.attributes = true
          · simp only [entryShape, same, ↓reduceIte, Except.map,
              Except.ok.injEq, Prod.mk.injEq] at returned
            obtain ⟨rfl, rfl⟩ := returned
            exact Or.inl ⟨entry, rfl, entryShape, same, rfl⟩
          · simp [entryShape, same, Except.map] at returned

/-- A call throws only when its name has an entry with other attributes. -/
theorem getSymbol_conflict
    {snapshot : Snapshot}
    (consistent : snapshot.Consistent)
    {namespaceName name : Text}
    {attributes : List SymbolAttribute}
    {location : SourceLocation}
    {error : TableError}
    (throws :
      getSymbol snapshot namespaceName name attributes location = .error error) :
    ∃ entry ∈ snapshot.entries,
      entry.qualifiedName = qualify namespaceName name ∧
        sameAttributes attributes entry.attributes = false := by
  unfold getSymbol at throws
  cases found :
      snapshot.indexByQualifiedName.lookup (qualify namespaceName name) with
  | none =>
      simp [found, Snapshot.insertOrValidate, Except.map] at throws
  | some id =>
      obtain ⟨entry, entryShape, named⟩ := (consistent _ _).mp found
      refine ⟨entry, List.mem_of_getElem? entryShape, named, ?_⟩
      by_contra same
      rw [Bool.not_eq_false] at same
      simp [found, Snapshot.validate, entryShape, same, Except.map] at throws

/-- Appending a name that is not indexed keeps the index exact. -/
theorem Snapshot.Consistent.append
    {snapshot : Snapshot}
    (consistent : snapshot.Consistent)
    (entry : Entry)
    (fresh :
      snapshot.indexByQualifiedName.lookup entry.qualifiedName = none) :
    Snapshot.Consistent
      { entries := snapshot.entries ++ [entry]
        indexByQualifiedName :=
          (entry.qualifiedName, snapshot.entries.length) ::
            snapshot.indexByQualifiedName } := by
  intro qualified id
  have notOld :
      ∀ {position : Nat} {old : Entry},
        snapshot.entries[position]? = some old →
        old.qualifiedName ≠ entry.qualifiedName := by
    intro position old found same
    have indexed := (consistent entry.qualifiedName position).mpr ⟨old, found, same⟩
    rw [fresh] at indexed
    cases indexed
  by_cases isNew : qualified = entry.qualifiedName
  · subst qualified
    simp only [List.lookup_cons, beq_self_eq_true, Option.some.injEq]
    constructor
    · rintro rfl
      exact ⟨entry, List.getElem?_concat_length, rfl⟩
    · rintro ⟨found, foundAt, sameName⟩
      by_contra different
      have inside := (List.getElem?_eq_some_iff.mp foundAt).1
      rw [List.length_append, List.length_singleton] at inside
      rw [List.getElem?_append_left (by omega)] at foundAt
      exact notOld foundAt sameName
  · have skip : (qualified == entry.qualifiedName) = false := by
      simpa using isNew
    simp only [List.lookup_cons, skip, consistent qualified id]
    constructor
    · rintro ⟨found, foundAt, sameName⟩
      have inside := (List.getElem?_eq_some_iff.mp foundAt).1
      exact ⟨found, by rw [List.getElem?_append_left inside, foundAt], sameName⟩
    · rintro ⟨found, foundAt, sameName⟩
      by_cases inside : id < snapshot.entries.length
      · rw [List.getElem?_append_left inside] at foundAt
        exact ⟨found, foundAt, sameName⟩
      · rw [List.getElem?_append_right (Nat.le_of_not_lt inside)] at foundAt
        have atNew := List.mem_of_getElem? foundAt
        rw [List.mem_singleton.mp atNew] at sameName
        exact (isNew sameName.symm).elim

/-- Every successful call keeps the index exact. -/
theorem getSymbol_consistent
    {snapshot published : Snapshot}
    (consistent : snapshot.Consistent)
    {namespaceName name : Text}
    {attributes : List SymbolAttribute}
    {location : SourceLocation}
    {symbol : Symbol}
    (returned :
      getSymbol snapshot namespaceName name attributes location =
        .ok (symbol, published)) :
    published.Consistent := by
  rcases getSymbol_cases returned with
    ⟨_, _, _, _, unchanged⟩ | ⟨fresh, _, appended⟩
  · rwa [unchanged]
  · rw [appended]
    exact consistent.append
      { qualifiedName := _, attributes := _, location := _ } fresh

/-- Every table that the program can reach has an exact index. -/
theorem Snapshot.Reachable.consistent
    {snapshot : Snapshot}
    (reachable : snapshot.Reachable) :
    snapshot.Consistent := by
  induction reachable with
  | empty =>
      intro qualified id
      simp [Snapshot.empty]
  | getSymbol _ returned inductionHypothesis =>
      exact getSymbol_consistent inductionHypothesis returned

/-- Only a registration without attributes passes a check against none. -/
theorem eq_nil_of_sameAttributes
    {existing : List SymbolAttribute}
    (same : sameAttributes [] existing = true) :
    existing = [] := by
  simp only [sameAttributes, Bool.and_eq_true, beq_iff_eq] at same
  exact List.length_eq_zero_iff.mp same.1.symm

/-- A name registered without attributes resolves to its own symbol. -/
theorem getSymbol_registered
    {snapshot : Snapshot}
    (consistent : snapshot.Consistent)
    {namespaceName name : Text}
    {symbol : Symbol}
    {entry : Entry}
    (found : snapshot.entries[symbol.id]? = some entry)
    (named : entry.qualifiedName = qualify namespaceName name)
    (plain : entry.attributes = [])
    (location : SourceLocation) :
    getSymbol snapshot namespaceName name [] location =
      .ok (symbol, snapshot) := by
  have indexed :
      snapshot.indexByQualifiedName.lookup (qualify namespaceName name) =
        some symbol.id :=
    (consistent _ _).mpr ⟨entry, found, named⟩
  simp [getSymbol, indexed, Snapshot.validate, found, plain, Except.map]

end SymbolTable
