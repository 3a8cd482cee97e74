import Stocas.Atom.RoundTrip

namespace AtomCore

open SymbolTable (Snapshot Symbol Text)
open NumericaCore (bigIntOfString)

/-!
# What the parser returns

Everything that the parser builds has integer leaves, sums and products of at
least two operands, and names that it has registered without attributes.  Each
parsing function keeps this, and so does every successful parse.
-/

namespace AtomTree

/-- A node that parsing its printed form can rebuild. -/
structure Rebuildable
    (table : Snapshot)
    (namespaceName : Text)
    (tree : AtomTree) : Prop where
  printable : tree.Printable table namespaceName
  integer : tree.IntegerLeaf

/-- Splicing rebuildable operands does not lose any. -/
theorem length_variadicChildren
    {table : Snapshot}
    {namespaceName : Text}
    {tag : AtomTag}
    (variadic : tag = .add ∨ tag = .mul)
    {operands : List AtomTree}
    (all :
      ∀ operand ∈ operands,
        operand.Everywhere (Rebuildable table namespaceName)) :
    operands.length ≤ (variadicChildren tag operands).length := by
  rw [(perm_variadicChildren tag operands).length_eq]
  induction operands with
  | nil =>
      exact Nat.zero_le _
  | cons operand rest inductionHypothesis =>
      have later :=
        inductionHypothesis fun other member => all other (by simp [member])
      have here : 1 ≤ (operandsOf tag operand).length := by
        have printable := (all operand (by simp)).root.printable
        rw [operandsOf]
        split_ifs with nested
        · cases operand with
          | add terms | mul terms =>
              exact le_of_lt printable
          | num | var | pow | func =>
              rcases variadic with isAdd | isMul
              · rw [isAdd] at nested
                cases nested
              · rw [isMul] at nested
                cases nested
        · exact le_rfl
      simp only [flattenOperands, List.flatMap_cons, List.length_append,
        List.length_cons] at later ⊢
      omega

/-- A sum of two rebuildable operands. -/
theorem rebuildable_mkAdd
    {table : Snapshot}
    {namespaceName : Text}
    {first second : AtomTree}
    (firstHolds : first.Everywhere (Rebuildable table namespaceName))
    (secondHolds : second.Everywhere (Rebuildable table namespaceName)) :
    (mkAdd [first, second]).Everywhere (Rebuildable table namespaceName) := by
  have all :
      ∀ operand ∈ [first, second],
        operand.Everywhere (Rebuildable table namespaceName) := by
    simp [firstHolds, secondHolds]
  have several := length_variadicChildren (Or.inl rfl) all
  exact .node ⟨several, trivial⟩ (everywhere_variadicChildren all)

/-- A product of two rebuildable operands. -/
theorem rebuildable_mkMul
    {table : Snapshot}
    {namespaceName : Text}
    {first second : AtomTree}
    (firstHolds : first.Everywhere (Rebuildable table namespaceName))
    (secondHolds : second.Everywhere (Rebuildable table namespaceName)) :
    (mkMul [first, second]).Everywhere (Rebuildable table namespaceName) := by
  have all :
      ∀ operand ∈ [first, second],
        operand.Everywhere (Rebuildable table namespaceName) := by
    simp [firstHolds, secondHolds]
  have several := length_variadicChildren (Or.inr rfl) all
  exact .node ⟨several, trivial⟩ (everywhere_variadicChildren all)

/-- An integer leaf. -/
theorem rebuildable_num
    {table : Snapshot}
    {namespaceName : Text}
    (value : ℤ) :
    (AtomTree.num value).Everywhere (Rebuildable table namespaceName) :=
  .node ⟨trivial, Rat.den_intCast value⟩ (by simp [children])

/-- A power of rebuildable operands. -/
theorem rebuildable_pow
    {table : Snapshot}
    {namespaceName : Text}
    {base exponent : AtomTree}
    (baseHolds : base.Everywhere (Rebuildable table namespaceName))
    (exponentHolds : exponent.Everywhere (Rebuildable table namespaceName)) :
    (AtomTree.pow base exponent).Everywhere
      (Rebuildable table namespaceName) :=
  .node ⟨trivial, trivial⟩ (by simp [children, baseHolds, exponentHolds])

end AtomTree

/-- Later registrations leave plain symbols plain. -/
theorem PlainSymbol.registered
    {table later : Snapshot}
    (registered : table.entries <+: later.entries)
    {namespaceName name : Text}
    {symbol : Symbol}
    (plain : PlainSymbol table namespaceName symbol name) :
    PlainSymbol later namespaceName symbol name := by
  obtain ⟨identifier, entry, found, facts⟩ := plain
  obtain ⟨others, later_eq⟩ := registered
  have inside := (List.getElem?_eq_some_iff.mp found).1
  refine ⟨identifier, entry, ?_, facts⟩
  rw [← later_eq, List.getElem?_append_left inside, found]

/-- Later registrations leave nodes rebuildable. -/
theorem AtomTree.Rebuildable.registered
    {table later : Snapshot}
    (registered : table.entries <+: later.entries)
    {namespaceName : Text}
    {tree : AtomTree}
    (rebuildable : tree.Rebuildable table namespaceName) :
    tree.Rebuildable later namespaceName := by
  refine ⟨?_, rebuildable.integer⟩
  have printable := rebuildable.printable
  cases tree with
  | num | add | mul | pow =>
      exact printable
  | var | func =>
      obtain ⟨name, plain⟩ := printable
      exact ⟨name, plain.registered registered⟩

/-- The scanning loop takes only identifiers for names. -/
theorem tokenizeFuel_names
    {fuel : Nat}
    {text : Text}
    {pos : Nat}
    {tokens : List Token}
    (tokenized : tokenizeFuel fuel text pos = .ok tokens) :
    ∀ token ∈ tokens, token.kind = .ident → IsIdentifier token.text := by
  intro token member isIdent
  have spelled := (tokenizeFuel_scanned tokenized).spelled token member
  rwa [isIdent] at spelled

section Parsed

variable [StringHash] {context : ParserContext}

/-- A state in which a parse may be. -/
structure Healthy (state : ParserState) : Prop where
  invariant : state.store.Invariant
  consistent : state.table.Consistent
  names :
    ∀ token ∈ state.tokens, token.kind = .ident → IsIdentifier token.text

/-- The name that comes next is an identifier. -/
theorem Healthy.peek_name
    {state : ParserState}
    (healthy : Healthy state)
    (isIdent : state.peek.kind = .ident) :
    IsIdentifier state.peek.text := by
  rcases state with ⟨tokens, store, table⟩
  cases tokens with
  | nil =>
      cases isIdent
  | cons first rest =>
      exact healthy.names first (by simp) isIdent

/-- A state that a parse reaches from another. -/
structure Continues (earlier later : ParserState) : Prop where
  healthy : Healthy later
  growth : AtomStore.Extends earlier.store later.store
  registered : earlier.table.entries <+: later.table.entries

/-- A slot whose tree can be rebuilt. -/
structure Holds
    (context : ParserContext)
    (state : ParserState)
    (slot : Nat) : Prop where
  inside : slot < state.store.nodes.length
  rebuildable :
    (state.store.tree slot).Everywhere
      (AtomTree.Rebuildable state.table context.namespaceName)

omit [StringHash] in
/-- Passing a token changes no slot. -/
theorem Holds.advance
    {state : ParserState}
    {slot : Nat}
    (holds : Holds context state slot) :
    Holds context state.advance slot :=
  ⟨holds.inside, holds.rebuildable⟩

omit [StringHash] in
/-- An expected token is passed. -/
theorem eq_advance_of_expect
    {state later : ParserState}
    {kind : TokKind}
    {message : Text}
    (expected : state.expect kind message = .ok later) :
    later = state.advance := by
  rw [ParserState.expect] at expected
  split_ifs at expected
  · cases expected
    rfl
  · cases expected

/-- What a parsing function may return. -/
structure Delivers
    (context : ParserContext)
    (state : ParserState)
    (result : Nat × ParserState) : Prop where
  continues : Continues state result.2
  holds : Holds context result.2 result.1

/-- The same for several arguments. -/
structure DeliversAll
    (context : ParserContext)
    (state : ParserState)
    (result : List Nat × ParserState) : Prop where
  continues : Continues state result.2
  holds : ∀ slot ∈ result.1, Holds context result.2 slot

namespace Continues

variable {earlier middle later : ParserState}

theorem refl
    (healthy : Healthy earlier) :
    Continues earlier earlier :=
  ⟨healthy, AtomStore.Extends.refl _, List.prefix_rfl⟩

theorem trans
    (first : Continues earlier middle)
    (second : Continues middle later) :
    Continues earlier later :=
  ⟨second.healthy, first.growth.trans second.growth,
    first.registered.trans second.registered⟩

/-- Passing a token continues. -/
theorem advance
    (continues : Continues earlier later) :
    Continues earlier later.advance := by
  refine ⟨⟨continues.healthy.invariant, continues.healthy.consistent, ?_⟩,
    continues.growth, continues.registered⟩
  intro token member
  exact continues.healthy.names token (List.mem_of_mem_tail member)

/-- A slot that holds still holds later. -/
theorem holds
    (continues : Continues earlier later)
    (healthy : Healthy earlier)
    {slot : Nat}
    (holds : Holds context earlier slot) :
    Holds context later slot := by
  refine ⟨continues.growth.inside holds.inside, ?_⟩
  rw [continues.growth.tree healthy.invariant.wellFormed
    continues.healthy.invariant.wellFormed holds.inside]
  exact holds.rebuildable.imp fun _ here =>
    here.registered continues.registered

/-- A builder call continues, and its slot holds. -/
theorem build
    (continues : Continues earlier later)
    {result : Nat × AtomStore}
    {tree : AtomTree}
    (built : AtomStore.Built later.store result tree)
    (rebuildable :
      tree.Everywhere
        (AtomTree.Rebuildable later.table context.namespaceName)) :
    Delivers context earlier (later.build result) := by
  refine ⟨⟨⟨built.invariant, continues.healthy.consistent,
    continues.healthy.names⟩, continues.growth.trans built.growth,
    continues.registered⟩, built.inside, ?_⟩
  have tree_eq : result.2.tree result.1 = tree := built.tree_eq
  change (result.2.tree result.1).Everywhere _
  rw [tree_eq]
  exact rebuildable

/-- `num` with an integer. -/
theorem num
    (continues : Continues earlier later)
    (value : ℤ) :
    Delivers context earlier (later.build (later.store.num value)) :=
  continues.build
    (AtomStore.num_built continues.healthy.invariant (value : ℚ))
    (AtomTree.rebuildable_num value)

/-- `add` with two operands. -/
theorem add
    (continues : Continues earlier later)
    {first second : Nat}
    (firstHolds : Holds context later first)
    (secondHolds : Holds context later second) :
    Delivers context earlier
      (later.build (later.store.add [first, second])) := by
  have inside :
      ∀ term ∈ [first, second], term < later.store.nodes.length := by
    simp [firstHolds.inside, secondHolds.inside]
  exact continues.build (AtomStore.add_built continues.healthy.invariant inside)
    (AtomTree.rebuildable_mkAdd firstHolds.rebuildable secondHolds.rebuildable)

/-- `mul` with two operands. -/
theorem mul
    (continues : Continues earlier later)
    {first second : Nat}
    (firstHolds : Holds context later first)
    (secondHolds : Holds context later second) :
    Delivers context earlier
      (later.build (later.store.mul [first, second])) := by
  have inside :
      ∀ factor ∈ [first, second], factor < later.store.nodes.length := by
    simp [firstHolds.inside, secondHolds.inside]
  exact continues.build (AtomStore.mul_built continues.healthy.invariant inside)
    (AtomTree.rebuildable_mkMul firstHolds.rebuildable secondHolds.rebuildable)

/-- `pow`. -/
theorem pow
    (continues : Continues earlier later)
    {base exponent : Nat}
    (baseHolds : Holds context later base)
    (exponentHolds : Holds context later exponent) :
    Delivers context earlier
      (later.build (later.store.pow base exponent)) :=
  continues.build
    (AtomStore.pow_built continues.healthy.invariant baseHolds.inside
      exponentHolds.inside)
    (AtomTree.rebuildable_pow baseHolds.rebuildable exponentHolds.rebuildable)

end Continues

/-- A parse that goes on from a delivered state. -/
theorem Delivers.before
    {earlier middle : ParserState}
    {result : Nat × ParserState}
    (continues : Continues earlier middle)
    (delivers : Delivers context middle result) :
    Delivers context earlier result :=
  ⟨continues.trans delivers.continues, delivers.holds⟩

/-- `negate`. -/
theorem Delivers.negate
    {earlier : ParserState}
    {result : Nat × ParserState}
    (delivers : Delivers context earlier result) :
    Delivers context earlier (AtomCore.negate result.2 result.1) := by
  have healthy := delivers.continues.healthy
  have minusOne : Delivers context result.2 _ :=
    (Continues.refl healthy).num (-1)
  have continues := delivers.continues.trans minusOne.continues
  have product :=
    continues.mul minusOne.holds
      (minusOne.continues.holds healthy delivers.holds)
  simpa [AtomCore.negate] using product

/-- `store_.pow(rhs, store_.num(Rational(-1)))`. -/
theorem Delivers.invert
    {earlier : ParserState}
    {result : Nat × ParserState}
    (delivers : Delivers context earlier result) :
    Delivers context earlier (AtomCore.invert result.2 result.1) := by
  have healthy := delivers.continues.healthy
  have minusOne : Delivers context result.2 _ :=
    (Continues.refl healthy).num (-1)
  have continues := delivers.continues.trans minusOne.continues
  have power :=
    continues.pow (minusOne.continues.holds healthy delivers.holds)
      minusOne.holds
  simpa [AtomCore.invert] using power

/-- What all parsing functions do with so much fuel. -/
structure ParserDelivers (context : ParserContext) (fuel : Nat) : Prop where
  expression
    {minPrec : Nat}
    {state : ParserState}
    {result : Nat × ParserState} :
    Healthy state →
    parseExpression context fuel minPrec state = .ok result →
    Delivers context state result
  operators
    {minPrec lhs : Nat}
    {state : ParserState}
    {result : Nat × ParserState} :
    Healthy state →
    Holds context state lhs →
    parseOperators context fuel minPrec lhs state = .ok result →
    Delivers context state result
  unary
    {state : ParserState}
    {result : Nat × ParserState} :
    Healthy state →
    parseUnary context fuel state = .ok result →
    Delivers context state result
  pow
    {state : ParserState}
    {result : Nat × ParserState} :
    Healthy state →
    parsePow context fuel state = .ok result →
    Delivers context state result
  primary
    {state : ParserState}
    {result : Nat × ParserState} :
    Healthy state →
    parsePrimary context fuel state = .ok result →
    Delivers context state result
  arguments
    {state : ParserState}
    {result : List Nat × ParserState} :
    Healthy state →
    parseArguments context fuel state = .ok result →
    DeliversAll context state result
  moreArguments
    {state : ParserState}
    {result : List Nat × ParserState} :
    Healthy state →
    parseMoreArguments context fuel state = .ok result →
    DeliversAll context state result

namespace ParserDelivers

variable {fuel : Nat} {state : ParserState} {result : Nat × ParserState}

/-- `parse_expression`. -/
theorem expression_step
    (delivers : ParserDelivers context fuel)
    {minPrec : Nat}
    (healthy : Healthy state)
    (parsed : parseExpression context (fuel + 1) minPrec state = .ok result) :
    Delivers context state result := by
  simp only [parseExpression, Outcome.bind_eq_ok] at parsed
  obtain ⟨lhs, lhsParsed, loop⟩ := parsed
  have left := delivers.unary healthy lhsParsed
  exact (delivers.operators left.continues.healthy left.holds loop).before
    left.continues

/-- One round of the loop: an operand, and a builder call on both. -/
theorem round
    (delivers : ParserDelivers context fuel)
    {minPrec operandPrec lhs : Nat}
    {next : ParserState}
    (healthy : Healthy state)
    (continues : Continues state next)
    (lhsHolds : Holds context state lhs)
    {rhs : Nat × ParserState}
    (rhsParsed :
      parseExpression context fuel operandPrec next = .ok rhs)
    {adjusted combined : Nat × ParserState}
    (adjust :
      ∀ {earlier : ParserState},
        Delivers context earlier rhs → Delivers context earlier adjusted)
    (combine :
      ∀ {earlier : ParserState},
        Continues earlier adjusted.2 →
        Holds context adjusted.2 lhs →
        Holds context adjusted.2 adjusted.1 →
        Delivers context earlier combined)
    (loop :
      parseOperators context fuel minPrec combined.1 combined.2 = .ok result) :
    Delivers context state result := by
  have right :=
    adjust ((delivers.expression continues.healthy rhsParsed).before continues)
  have whole :=
    combine right.continues (right.continues.holds healthy lhsHolds)
      right.holds
  exact (delivers.operators whole.continues.healthy whole.holds loop).before
    whole.continues

/-- The loop of `parse_expression`. -/
theorem operators_step
    (delivers : ParserDelivers context fuel)
    {minPrec lhs : Nat}
    (healthy : Healthy state)
    (lhsHolds : Holds context state lhs)
    (parsed :
      parseOperators context (fuel + 1) minPrec lhs state = .ok result) :
    Delivers context state result := by
  have here := Continues.refl healthy
  simp only [parseOperators] at parsed
  split_ifs at parsed with additive isMinus multiplicative isSlash implicit
  · obtain ⟨rhs, rhsParsed, loop⟩ := Outcome.bind_eq_ok.mp parsed
    exact delivers.round healthy here.advance lhsHolds rhsParsed
      Delivers.negate
      (fun continues left right => continues.add left right) loop
  · obtain ⟨rhs, rhsParsed, loop⟩ := Outcome.bind_eq_ok.mp parsed
    exact delivers.round healthy here.advance lhsHolds rhsParsed
      (fun right => right)
      (fun continues left right => continues.add left right) loop
  · obtain ⟨rhs, rhsParsed, loop⟩ := Outcome.bind_eq_ok.mp parsed
    exact delivers.round healthy here.advance lhsHolds rhsParsed
      Delivers.invert
      (fun continues left right => continues.mul left right) loop
  · obtain ⟨rhs, rhsParsed, loop⟩ := Outcome.bind_eq_ok.mp parsed
    exact delivers.round healthy here.advance lhsHolds rhsParsed
      (fun right => right)
      (fun continues left right => continues.mul left right) loop
  · obtain ⟨rhs, rhsParsed, loop⟩ := Outcome.bind_eq_ok.mp parsed
    exact delivers.round healthy here lhsHolds rhsParsed
      (fun right => right)
      (fun continues left right => continues.mul left right) loop
  · cases parsed
    exact ⟨here, lhsHolds⟩

/-- A base, and its exponent if a caret follows. -/
theorem power
    (delivers : ParserDelivers context fuel)
    {base : Nat × ParserState}
    (left : Delivers context state base)
    {exponent : Nat × ParserState}
    (exponentParsed :
      parseUnary context fuel base.2.advance = .ok exponent) :
    Delivers context state
      (exponent.2.build (exponent.2.store.pow base.1 exponent.1)) := by
  have healthy := left.continues.healthy
  have passed := (Continues.refl healthy).advance
  have right := (delivers.unary passed.healthy exponentParsed).before passed
  exact (left.continues.trans right.continues).pow
    (right.continues.holds healthy left.holds) right.holds

/-- `parse_unary`. -/
theorem unary_step
    (delivers : ParserDelivers context fuel)
    (healthy : Healthy state)
    (parsed : parseUnary context (fuel + 1) state = .ok result) :
    Delivers context state result := by
  have here := Continues.refl healthy
  simp only [parseUnary] at parsed
  split_ifs at parsed with minus number empty caret plus
  · cases parsed
  · obtain ⟨exponent, exponentParsed, built⟩ := Outcome.bind_eq_ok.mp parsed
    cases built
    exact delivers.power (here.advance.advance.num _) exponentParsed
  · cases parsed
    exact here.advance.advance.num _
  · obtain ⟨value, valueParsed, built⟩ := Outcome.bind_eq_ok.mp parsed
    cases built
    exact ((delivers.unary here.advance.healthy valueParsed).before
      here.advance).negate
  · exact (delivers.unary here.advance.healthy parsed).before here.advance
  · exact delivers.pow healthy parsed

/-- `parse_pow`. -/
theorem pow_step
    (delivers : ParserDelivers context fuel)
    (healthy : Healthy state)
    (parsed : parsePow context (fuel + 1) state = .ok result) :
    Delivers context state result := by
  simp only [parsePow] at parsed
  obtain ⟨base, baseParsed, rest⟩ := Outcome.bind_eq_ok.mp parsed
  have left := delivers.primary healthy baseParsed
  split_ifs at rest
  · obtain ⟨exponent, exponentParsed, built⟩ := Outcome.bind_eq_ok.mp rest
    cases built
    exact delivers.power left exponentParsed
  · cases rest
    exact left

omit [StringHash] in
/-- A name that the parser registers becomes a plain symbol. -/
theorem registered_plain
    {table later : Snapshot}
    (consistent : table.Consistent)
    {namespaceName name : Text}
    {location : SymbolTable.SourceLocation}
    {symbol : Symbol}
    (resolved :
      SymbolTable.getSymbol table namespaceName name [] location =
        .ok (symbol, later))
    (identifier : IsIdentifier name) :
    later.Consistent ∧ table.entries <+: later.entries ∧
      PlainSymbol later namespaceName symbol name := by
  refine ⟨SymbolTable.getSymbol_consistent consistent resolved, ?_⟩
  rcases SymbolTable.getSymbol_cases resolved with
    ⟨entry, indexed, found, same, unchanged⟩ | ⟨fresh, isNew, appended⟩
  · subst later
    obtain ⟨indexedEntry, indexedFound, named⟩ := (consistent _ _).mp indexed
    rw [found, Option.some.injEq] at indexedFound
    subst indexedEntry
    exact ⟨List.prefix_rfl, identifier, entry, found, named,
      SymbolTable.eq_nil_of_sameAttributes same⟩
  · subst later
    refine ⟨List.prefix_append _ _, identifier,
      ⟨SymbolTable.qualify namespaceName name, [], location⟩, ?_, rfl, rfl⟩
    rw [isNew]
    exact List.getElem?_concat_length

/-- `parse_primary`. -/
theorem primary_step
    (delivers : ParserDelivers context fuel)
    (healthy : Healthy state)
    (parsed : parsePrimary context (fuel + 1) state = .ok result) :
    Delivers context state result := by
  have here := Continues.refl healthy
  have isName : state.peek.kind = .ident → IsIdentifier state.peek.text :=
    healthy.peek_name
  simp only [parsePrimary] at parsed
  split at parsed
  · split_ifs at parsed
    · cases parsed
    · cases parsed
      exact here.advance.num (bigIntOfString state.peek.text)
  · rename_i isIdent
    split at parsed
    · cases parsed
    · rename_i symbol table resolved
      obtain ⟨consistent, registered, plain⟩ :=
        registered_plain healthy.consistent resolved (isName isIdent)
      have named :
          Continues state { state.advance with table := table } :=
        ⟨⟨here.advance.healthy.invariant, consistent,
          here.advance.healthy.names⟩, here.growth, registered⟩
      split_ifs at parsed
      · obtain ⟨arguments, argumentsParsed, closed⟩ :=
          Outcome.bind_eq_ok.mp parsed
        obtain ⟨passed, expected, built⟩ := Outcome.bind_eq_ok.mp closed
        have all :=
          delivers.arguments named.advance.healthy argumentsParsed
        have continues := named.advance.trans all.continues
        have laterPlain := plain.registered all.continues.registered
        have inside :
            ∀ argument ∈ arguments.1,
              argument < arguments.2.store.nodes.length :=
          fun argument member => (all.holds argument member).inside
        have application :
            (AtomTree.func symbol
              (arguments.1.map arguments.2.store.tree)).Everywhere
                (AtomTree.Rebuildable arguments.2.table
                  context.namespaceName) := by
          refine .node ⟨⟨_, laterPlain⟩, trivial⟩ ?_
          intro child member
          obtain ⟨argument, argumentMember, rfl⟩ := List.mem_map.mp member
          exact (all.holds argument argumentMember).rebuildable
        have passed_eq := eq_advance_of_expect expected
        subst passed
        cases built
        exact continues.advance.build
          (AtomStore.func_built continues.healthy.invariant symbol inside)
          application
      · cases parsed
        refine named.build
          (AtomStore.var_built named.healthy.invariant symbol) ?_
        exact .node ⟨⟨_, plain⟩, trivial⟩ (by simp [AtomTree.children])
  · obtain ⟨inner, innerParsed, closed⟩ := Outcome.bind_eq_ok.mp parsed
    obtain ⟨passed, expected, built⟩ := Outcome.bind_eq_ok.mp closed
    have whole :=
      (delivers.expression here.advance.healthy innerParsed).before here.advance
    have passed_eq := eq_advance_of_expect expected
    subst passed
    cases built
    exact ⟨whole.continues.advance, whole.holds.advance⟩
  · cases parsed

/-- One argument, delivered before the others. -/
theorem argument_step
    (delivers : ParserDelivers context fuel)
    {next : ParserState}
    (continues : Continues state next)
    {first : Nat × ParserState}
    (firstParsed : parseExpression context fuel 1 next = .ok first)
    {others : List Nat × ParserState}
    (othersParsed : parseMoreArguments context fuel first.2 = .ok others) :
    DeliversAll context state (first.1 :: others.1, others.2) := by
  have one :=
    (delivers.expression continues.healthy firstParsed).before continues
  have more := delivers.moreArguments one.continues.healthy othersParsed
  refine ⟨one.continues.trans more.continues, ?_⟩
  intro slot member
  rcases List.mem_cons.mp member with isFirst | isLater
  · subst slot
    exact more.continues.holds one.continues.healthy one.holds
  · exact more.holds slot isLater

/-- All arguments of a call. -/
theorem arguments_step
    (delivers : ParserDelivers context fuel)
    {result : List Nat × ParserState}
    (healthy : Healthy state)
    (parsed : parseArguments context (fuel + 1) state = .ok result) :
    DeliversAll context state result := by
  have here := Continues.refl healthy
  simp only [parseArguments] at parsed
  split_ifs at parsed
  · cases parsed
    exact ⟨here, List.forall_mem_nil _⟩
  · obtain ⟨first, firstParsed, rest⟩ := Outcome.bind_eq_ok.mp parsed
    obtain ⟨others, othersParsed, collected⟩ := Outcome.bind_eq_ok.mp rest
    cases collected
    exact delivers.argument_step here firstParsed othersParsed

/-- The arguments after a comma. -/
theorem moreArguments_step
    (delivers : ParserDelivers context fuel)
    {result : List Nat × ParserState}
    (healthy : Healthy state)
    (parsed : parseMoreArguments context (fuel + 1) state = .ok result) :
    DeliversAll context state result := by
  have here := Continues.refl healthy
  simp only [parseMoreArguments] at parsed
  split_ifs at parsed
  · obtain ⟨next, nextParsed, rest⟩ := Outcome.bind_eq_ok.mp parsed
    obtain ⟨others, othersParsed, collected⟩ := Outcome.bind_eq_ok.mp rest
    cases collected
    exact delivers.argument_step here.advance nextParsed othersParsed
  · cases parsed
    exact ⟨here, List.forall_mem_nil _⟩

end ParserDelivers

/-- With any fuel the parsing functions keep the kind. -/
theorem parserDelivers
    (context : ParserContext)
    (fuel : Nat) :
    ParserDelivers context fuel := by
  induction fuel with
  | zero =>
      exact ⟨nofun, nofun, nofun, nofun, nofun, nofun, nofun⟩
  | succ fuel inductionHypothesis =>
      exact {
        expression := inductionHypothesis.expression_step
        operators := inductionHypothesis.operators_step
        unary := inductionHypothesis.unary_step
        pow := inductionHypothesis.pow_step
        primary := inductionHypothesis.primary_step
        arguments := inductionHypothesis.arguments_step
        moreArguments := inductionHypothesis.moreArguments_step }

/-- What a successful parse returns can be rebuilt from its printed form. -/
theorem parse_delivers
    {store : AtomStore}
    {table : Snapshot}
    (invariant : store.Invariant)
    (consistent : table.Consistent)
    {text : Text}
    {result : Nat × ParserState}
    (parsed : parse context text store table = .ok result) :
    ∃ tokens,
      Delivers context
        { tokens := tokens, store := store, table := table } result := by
  obtain ⟨tokens, tokenized, rest⟩ := Outcome.bind_eq_ok.mp parsed
  split_ifs at rest
  · cases rest
  · obtain ⟨whole, wholeParsed, closed⟩ := Outcome.bind_eq_ok.mp rest
    obtain ⟨passed, expected, finished⟩ := Outcome.bind_eq_ok.mp closed
    have healthy :
        Healthy { tokens := tokens, store := store, table := table } :=
      ⟨invariant, consistent, tokenizeFuel_names tokenized⟩
    have delivers := (parserDelivers context _).expression healthy wholeParsed
    have passed_eq := eq_advance_of_expect expected
    subst passed
    cases finished
    exact ⟨tokens, delivers.continues.advance, delivers.holds.advance⟩

/--
Printing an atom of integers and parsing it gives its own slot, and every atom
that a parse returns is of that kind.
-/
theorem parse_print
    {store : AtomStore}
    (built : store.Reachable)
    {table : Snapshot}
    (registered : table.Reachable) :
    (∀ index < store.nodes.length,
      (store.tree index).Everywhere
          (AtomTree.Rebuildable table context.namespaceName) →
        ∃ state,
          parse context (store.print table index) store table =
              .ok (index, state) ∧
            AtomStore.Extends store state.store) ∧
      ∀ text slot state,
        parse context text store table = .ok (slot, state) →
        slot < state.store.nodes.length ∧
          (state.store.tree slot).Everywhere
            (AtomTree.Rebuildable state.table context.namespaceName) := by
  have invariant := built.invariant
  have consistent := registered.consistent
  constructor
  · intro index inside rebuildable
    obtain ⟨⟨slot, state⟩, parsed, delivered, -⟩ :=
      print_parses consistent invariant
        (rebuildable.imp fun _ here => here.printable)
    have tree_eq := delivered.tree_eq
    rw [AtomTree.reparse_eq_self (invariant.canonical index inside)
      (rebuildable.imp fun _ here => here.integer),
      ← delivered.tree_old invariant inside] at tree_eq
    have sameSlot :=
      delivered.invariant.tree_injective delivered.inside
        (delivered.growth.inside inside) tree_eq
    have sameSlot : slot = index := sameSlot
    subst slot
    exact ⟨state, parsed, delivered.growth⟩
  · intro text slot state parsed
    obtain ⟨tokens, delivers⟩ := parse_delivers invariant consistent parsed
    exact ⟨delivers.holds.inside, delivers.holds.rebuildable⟩

open AtomStore.BuilderCall (step Legal) in
open Transition (run) in
omit [StringHash] in
/-- `(-2)^x`, which is printed without parentheses. -/
theorem parse_print_negative_power :
    let constant : StringHash := ⟨fun _ => 0⟩
    let context : ParserContext := ⟨"test".toList, ⟨[], 0⟩⟩
    let store :=
      run (@step constant) AtomStore.empty [.num (-2), .var ⟨0⟩, .pow 0 1]
    let table : Snapshot :=
      ⟨[⟨"test::x".toList, [], ⟨[], 0⟩⟩], [("test::x".toList, 0)]⟩
    ∃ state,
      @parse constant context (store.print table 2) store table =
          .ok (2, state) ∧
        AtomStore.Extends store state.store := by
  intro constant context store table
  have built : @AtomStore.Reachable constant store := by
    refine ⟨_, ?_, rfl⟩
    simp only [Transition.everyStep_cons]
    exact ⟨by decide, by decide, by decide +kernel, Transition.everyStep_nil⟩
  have resolved :
      SymbolTable.getSymbol .empty "test".toList "x".toList [] ⟨[], 0⟩ =
        .ok (⟨0⟩, table) := by
    decide +kernel
  have registered : table.Reachable := .getSymbol .empty resolved
  have variableHolds :
      (AtomTree.var ⟨0⟩).Everywhere
        (AtomTree.Rebuildable table context.namespaceName) := by
    refine .node ⟨⟨"x".toList, ?_, _, rfl, by decide, rfl⟩, trivial⟩
      (by simp [AtomTree.children])
    exact ⟨by decide, fun _ member => (List.not_mem_nil member).elim⟩
  have tree_eq : store.tree 2 = .pow (.num (-2)) (.var ⟨0⟩) := by
    decide +kernel
  refine (@parse_print constant context store built table registered).1 2
    (by decide +kernel) ?_
  rw [tree_eq]
  exact AtomTree.rebuildable_pow (AtomTree.rebuildable_num (-2)) variableHolds

end Parsed

end AtomCore
