import Stocas.Atom.Parsed
import Stocas.Atom.TreeParser

namespace AtomCore

open AtomStore (BuilderCall)
open AtomStore.BuilderCall (Legal step)
open Outcome (bind_eq_ok ok_bind)
open RelatedOutcomes (Related)
open SymbolTable (Snapshot Symbol SymbolAttribute Text)
open Transition (EveryStep run)

/-!
# Parsing a text again

A parse registers the names that it meets.  With every table that still has them, and on
every arena that has grown since, the same text is the same slot, and nothing is registered.
-/

namespace TreeParser

/-- The next token. -/
def next (tokens : List Token) : Token :=
  tokens.headD ⟨.finish, [], 0⟩

theorem peek_mk
    (tokens : List Token)
    (table : Snapshot) :
    State.peek ⟨tokens, table⟩ = next tokens :=
  rfl

theorem lookahead_mk
    (tokens : List Token)
    (table : Snapshot) :
    State.lookahead ⟨tokens, table⟩ = next tokens.tail :=
  rfl

theorem advance_mk
    (tokens : List Token)
    (table : Snapshot) :
    State.advance ⟨tokens, table⟩ = ⟨tokens.tail, table⟩ :=
  rfl

/--
A run on a table, for fixed tokens: it only registers names, and on every later table it
returns the same and registers nothing.
-/
structure Settles
    {α : Type}
    (run : Snapshot → Except ParseError (α × State)) : Prop where
  settled :
    ∀ table value reached,
      table.Consistent →
      run table = .ok (value, reached) →
      reached.table.Consistent ∧
        table.entries <+: reached.table.entries ∧
        ∀ later : Snapshot,
          later.Consistent →
          reached.table.entries <+: later.entries →
          run later = .ok (value, { reached with table := later })

section Rules

variable {α β : Type}

theorem settles_ok
    (value : α)
    (tokens : List Token) :
    Settles fun table => .ok (value, ⟨tokens, table⟩) := by
  constructor
  intro table value reached consistent returned
  cases returned
  exact ⟨consistent, List.prefix_rfl, fun _ _ _ => rfl⟩

theorem settles_error (error : ParseError) :
    Settles (fun _ => .error error : Snapshot → Except ParseError (α × State)) := by
  constructor
  intro table value reached consistent returned
  cases returned

/-- A branch on what does not depend on the table. -/
theorem settles_ite
    {condition : Prop}
    {decision : Snapshot → Decidable condition}
    {first second : Snapshot → Except ParseError (α × State)}
    (firstSettles : condition → Settles first)
    (secondSettles : ¬ condition → Settles second) :
    Settles fun table => @ite _ condition (decision table) (first table) (second table) := by
  by_cases holds : condition
  · simpa only [if_pos holds] using firstSettles holds
  · simpa only [if_neg holds] using secondSettles holds

/-- One run after another. -/
theorem Settles.bind
    {run : Snapshot → Except ParseError (α × State)}
    {rest : α × State → Except ParseError (β × State)}
    (settles : Settles run)
    (restSettles : ∀ value tokens, Settles fun table => rest (value, ⟨tokens, table⟩)) :
    Settles fun table => run table >>= rest := by
  constructor
  intro table value reached consistent returned
  obtain ⟨⟨first, middle⟩, ran, continued⟩ := bind_eq_ok.mp returned
  obtain ⟨middleConsistent, grown, again⟩ := settles.settled _ _ _ consistent ran
  obtain ⟨reachedConsistent, grownOn, restAgain⟩ :=
    (restSettles first middle.tokens).settled _ _ _ middleConsistent continued
  refine ⟨reachedConsistent, grown.trans grownOn, ?_⟩
  intro later laterConsistent registered
  refine bind_eq_ok.mpr ⟨_, again later laterConsistent (grownOn.trans registered), ?_⟩
  exact restAgain later laterConsistent registered

/-- An expected token is passed whatever the table is. -/
theorem settles_expect
    (tokens : List Token)
    (kind : TokKind)
    (message : Text)
    (value : α) :
    Settles fun table =>
      (State.expect ⟨tokens, table⟩ kind message) >>= fun next => .ok (value, next) := by
  by_cases expected : (State.peek ⟨tokens, .empty⟩).kind = kind
  · have passes : ∀ table,
        State.expect ⟨tokens, table⟩ kind message = .ok ⟨tokens.tail, table⟩ :=
      fun table => if_pos expected
    simp only [passes, ok_bind]
    exact settles_ok value tokens.tail
  · have throws : ∀ table,
        State.expect ⟨tokens, table⟩ kind message =
          fail message (State.peek ⟨tokens, .empty⟩).pos :=
      fun table => if_neg expected
    simp only [throws]
    exact settles_error _

end Rules

/-- A lookup only registers its name. -/
theorem getSymbol_grows
    {table grown : Snapshot}
    {namespaceName name : Text}
    {attributes : List SymbolAttribute}
    {location : SymbolTable.SourceLocation}
    {symbol : Symbol}
    (returned :
      SymbolTable.getSymbol table namespaceName name attributes location =
        .ok (symbol, grown)) :
    table.entries <+: grown.entries := by
  rcases SymbolTable.getSymbol_cases returned with
    ⟨_, _, _, _, rfl⟩ | ⟨_, _, rfl⟩
  · exact List.prefix_rfl
  · exact List.prefix_append _ _

/-- A name that is looked up keeps its symbol. -/
theorem getSymbol_settles
    {table grown later : Snapshot}
    {namespaceName name : Text}
    {location : SymbolTable.SourceLocation}
    {symbol : Symbol}
    (consistent : table.Consistent)
    (returned :
      SymbolTable.getSymbol table namespaceName name [] location = .ok (symbol, grown))
    (laterConsistent : later.Consistent)
    (registered : grown.entries <+: later.entries) :
    SymbolTable.getSymbol later namespaceName name [] location = .ok (symbol, later) := by
  have kept : ∀ entry,
      grown.entries[symbol.id]? = some entry → later.entries[symbol.id]? = some entry := by
    intro entry found
    obtain ⟨others, later_eq⟩ := registered
    have inside := (List.getElem?_eq_some_iff.mp found).1
    rw [← later_eq, List.getElem?_append_left inside, found]
  rcases SymbolTable.getSymbol_cases returned with
    ⟨entry, indexed, found, same, unchanged⟩ | ⟨fresh, isNew, appended⟩
  · subst grown
    obtain ⟨indexedEntry, indexedFound, named⟩ := (consistent _ _).mp indexed
    rw [found, Option.some.injEq] at indexedFound
    subst indexedEntry
    exact SymbolTable.getSymbol_registered laterConsistent (kept entry found) named
      (SymbolTable.eq_nil_of_sameAttributes same) location
  · have found :
        grown.entries[symbol.id]? =
          some ⟨SymbolTable.qualify namespaceName name, [], location⟩ := by
      rw [appended, isNew]
      exact List.getElem?_concat_length
    exact SymbolTable.getSymbol_registered laterConsistent (kept _ found) rfl rfl location

/-- What all parsing functions do with so much fuel. -/
structure ParserSettles (context : ParserContext) (fuel : ℕ) : Prop where
  expression (minPrec : ℕ) (tokens : List Token) :
    Settles fun table => parseExpression context fuel minPrec ⟨tokens, table⟩
  operators (minPrec : ℕ) (lhs : AtomTree) (tokens : List Token) :
    Settles fun table => parseOperators context fuel minPrec lhs ⟨tokens, table⟩
  unary (tokens : List Token) :
    Settles fun table => parseUnary context fuel ⟨tokens, table⟩
  pow (tokens : List Token) :
    Settles fun table => parsePow context fuel ⟨tokens, table⟩
  primary (tokens : List Token) :
    Settles fun table => parsePrimary context fuel ⟨tokens, table⟩
  arguments (tokens : List Token) :
    Settles fun table => parseArguments context fuel ⟨tokens, table⟩
  moreArguments (tokens : List Token) :
    Settles fun table => parseMoreArguments context fuel ⟨tokens, table⟩

namespace ParserSettles

variable {context : ParserContext} {fuel : ℕ} (settles : ParserSettles context fuel)

include settles

theorem expression_step
    (minPrec : ℕ)
    (tokens : List Token) :
    Settles fun table => parseExpression context (fuel + 1) minPrec ⟨tokens, table⟩ := by
  simp only [parseExpression]
  exact (settles.unary tokens).bind fun lhs next => settles.operators minPrec lhs next

theorem operators_step
    (minPrec : ℕ)
    (lhs : AtomTree)
    (tokens : List Token) :
    Settles fun table => parseOperators context (fuel + 1) minPrec lhs ⟨tokens, table⟩ := by
  simp only [parseOperators, peek_mk, advance_mk]
  refine settles_ite (fun _ => ?_) fun _ => settles_ite (fun _ => ?_) fun _ =>
    settles_ite (fun _ => ?_) fun _ => settles_ok lhs tokens
  · exact (settles.expression 2 tokens.tail).bind fun rhs rest =>
      settles.operators minPrec (.mkAdd [lhs, addend (next tokens).kind rhs]) rest
  · exact (settles.expression 3 tokens.tail).bind fun rhs rest =>
      settles.operators minPrec (.mkMul [lhs, factor (next tokens).kind rhs]) rest
  · exact (settles.expression 3 tokens).bind fun rhs rest =>
      settles.operators minPrec (.mkMul [lhs, rhs]) rest

/-- A base, and its exponent if a caret follows. -/
theorem power
    (base : AtomTree)
    (tokens : List Token) :
    Settles fun table =>
      if (next tokens).kind = .caret then
        parseUnary context fuel ⟨tokens.tail, table⟩ >>= fun exponent =>
          .ok (.pow base exponent.1, exponent.2)
      else
        .ok (base, ⟨tokens, table⟩) := by
  refine settles_ite (fun _ => ?_) fun _ => settles_ok base tokens
  exact (settles.unary tokens.tail).bind fun exponent rest =>
    settles_ok (AtomTree.pow base exponent) rest

theorem unary_step (tokens : List Token) :
    Settles fun table => parseUnary context (fuel + 1) ⟨tokens, table⟩ := by
  simp only [parseUnary, peek_mk, lookahead_mk, advance_mk]
  refine settles_ite (fun _ => ?_) fun _ => settles_ite (fun _ => ?_) fun _ => ?_
  · refine settles_ite (fun _ => ?_) fun _ => ?_
    · exact settles_ite (fun _ => settles_error _) fun _ => settles.power _ tokens.tail.tail
    · exact (settles.unary tokens.tail).bind fun value rest =>
        settles_ok (negate value) rest
  · exact settles.unary tokens.tail
  · exact settles.pow tokens

theorem pow_step (tokens : List Token) :
    Settles fun table => parsePow context (fuel + 1) ⟨tokens, table⟩ := by
  simp only [parsePow]
  exact (settles.primary tokens).bind fun base rest => settles.power base rest

/-- A symbol, and the arguments of its call. -/
theorem named
    (symbol : Symbol)
    (tokens : List Token) :
    Settles fun table =>
      if (next tokens).kind = .lParen then
        parseArguments context fuel ⟨tokens.tail, table⟩ >>= fun arguments =>
          arguments.2.expect .rParen "expected ')' to close function call".toList >>=
            fun rest => .ok (AtomTree.func symbol arguments.1, rest)
      else
        .ok (AtomTree.var symbol, ⟨tokens, table⟩) := by
  refine settles_ite (fun _ => ?_) fun _ => settles_ok _ tokens
  exact (settles.arguments tokens.tail).bind fun arguments rest =>
    settles_expect rest _ _ (AtomTree.func symbol arguments)

theorem primary_step (tokens : List Token) :
    Settles fun table => parsePrimary context (fuel + 1) ⟨tokens, table⟩ := by
  simp only [parsePrimary, peek_mk, advance_mk]
  cases (next tokens).kind with
  | number =>
      exact settles_ite (fun _ => settles_error _) fun _ => settles_ok _ tokens.tail
  | ident =>
      constructor
      intro table value reached consistent returned
      dsimp only at returned
      split at returned
      · cases returned
      · rename_i symbol grown resolved
        have registered := getSymbol_grows resolved
        have grownConsistent := SymbolTable.getSymbol_consistent consistent resolved
        obtain ⟨reachedConsistent, grownOn, again⟩ :=
          (settles.named symbol tokens.tail).settled _ _ _ grownConsistent returned
        refine ⟨reachedConsistent, registered.trans grownOn, ?_⟩
        intro later laterConsistent laterGrown
        have sameSymbol :=
          getSymbol_settles consistent resolved laterConsistent (grownOn.trans laterGrown)
        dsimp only
        rw [sameSymbol]
        exact again later laterConsistent laterGrown
  | lParen =>
      exact (settles.expression 1 tokens.tail).bind fun inner rest =>
        settles_expect rest _ _ inner
  | finish | plus | minus | star | slash | caret | rParen | comma =>
      exact settles_error _

theorem argument (tokens : List Token) :
    Settles fun table =>
      parseExpression context fuel 1 ⟨tokens, table⟩ >>= fun first =>
        parseMoreArguments context fuel first.2 >>= fun others =>
          .ok (first.1 :: others.1, others.2) := by
  refine (settles.expression 1 tokens).bind ?_
  intro first rest
  dsimp only
  exact (settles.moreArguments rest).bind fun others last =>
    settles_ok (first :: others) last

theorem arguments_step (tokens : List Token) :
    Settles fun table => parseArguments context (fuel + 1) ⟨tokens, table⟩ := by
  simp only [parseArguments, peek_mk]
  exact settles_ite (fun _ => settles_ok [] tokens) fun _ => settles.argument tokens

theorem moreArguments_step (tokens : List Token) :
    Settles fun table => parseMoreArguments context (fuel + 1) ⟨tokens, table⟩ := by
  simp only [parseMoreArguments, peek_mk, advance_mk]
  exact settles_ite (fun _ => settles.argument tokens.tail) fun _ => settles_ok [] tokens

end ParserSettles

/-- With any fuel every parsing function settles. -/
theorem parserSettles
    (context : ParserContext)
    (fuel : ℕ) :
    ParserSettles context fuel := by
  induction fuel with
  | zero =>
      constructor <;> intros <;> exact settles_error _
  | succ fuel inductionHypothesis =>
      exact {
        expression := inductionHypothesis.expression_step
        operators := inductionHypothesis.operators_step
        unary := inductionHypothesis.unary_step
        pow := inductionHypothesis.pow_step
        primary := inductionHypothesis.primary_step
        arguments := inductionHypothesis.arguments_step
        moreArguments := inductionHypothesis.moreArguments_step }

/-- A text that is parsed again has the same tree, and registers nothing. -/
theorem parse_again
    {context : ParserContext}
    {expression : Text}
    {table grown : Snapshot}
    (consistent : table.Consistent)
    {tree : AtomTree}
    (parsed : parse context expression table = .ok (tree, grown))
    {later : Snapshot}
    (laterConsistent : later.Consistent)
    (registered : grown.entries <+: later.entries) :
    parse context expression later = .ok (tree, later) := by
  rw [parse] at parsed ⊢
  obtain ⟨tokens, tokenized, rest⟩ := bind_eq_ok.mp parsed
  rw [tokenized, ok_bind]
  split_ifs at rest ⊢
  · cases rest
  · have whole :
        Settles fun table =>
          parseExpression context (parserFuel tokens.length) 1 ⟨tokens, table⟩ >>=
            fun result =>
              result.2.expect .finish "trailing input after expression".toList >>=
                fun state => .ok (result.1, state) :=
      ((parserSettles context _).expression 1 tokens).bind fun result remaining =>
        settles_expect remaining _ _ result
    obtain ⟨result, read, closing⟩ := bind_eq_ok.mp rest
    obtain ⟨state, expected, finished⟩ := bind_eq_ok.mp closing
    cases finished
    have closes :
        (result.2.expect .finish "trailing input after expression".toList >>=
            fun state => Except.ok (result.1, state)) = .ok (result.1, state) :=
      bind_eq_ok.mpr ⟨state, expected, rfl⟩
    obtain ⟨-, -, again⟩ :=
      whole.settled _ _ _ consistent (bind_eq_ok.mpr ⟨result, read, closes⟩)
    obtain ⟨other, otherRead, otherClosing⟩ :=
      bind_eq_ok.mp (again later laterConsistent registered)
    obtain ⟨otherState, otherExpected, otherFinished⟩ := bind_eq_ok.mp otherClosing
    obtain ⟨sameTree, sameState⟩ := Prod.mk.inj (Except.ok.inj otherFinished)
    refine bind_eq_ok.mpr ⟨other, otherRead, bind_eq_ok.mpr ⟨otherState, otherExpected, ?_⟩⟩
    rw [sameTree, sameState]

end TreeParser

section Slots

variable [StringHash]

/-- What a parse leaves: a slot of the tree, or the exception, and every old slot as it was. -/
structure ParsesTo
    (store : AtomStore)
    (outcome : Except ParseError (ℕ × ParserState))
    (expected : Except ParseError (AtomTree × Snapshot)) : Prop where
  /-- It throws what the parser on trees throws. -/
  throws : ∀ error, outcome = .error error ↔ expected = .error error
  /-- It returns a slot of what the parser on trees returns, with the same table. -/
  returns :
    ∀ slot state,
      outcome = .ok (slot, state) →
      state.store.Invariant ∧
        slot < state.store.nodes.length ∧
        expected = .ok (state.store.tree slot, state.table) ∧
        ∀ index < store.nodes.length,
          index < state.store.nodes.length ∧
            state.store.tree index = store.tree index

/--
On every arena, whatever it holds, `parse` does what the parser on trees does.  A text that
is parsed again, in the same store after any builder calls and with a table to which names
were added, is the same slot, and registers nothing.
-/
theorem parse_stable
    (context : ParserContext)
    (expression : Text)
    {store : AtomStore}
    (reachable : store.Reachable)
    {table : Snapshot}
    (consistent : table.Consistent) :
    ParsesTo store (parse context expression store table)
        (TreeParser.parse context expression table) ∧
      ∀ slot state,
        parse context expression store table = .ok (slot, state) →
        ∀ (calls : List BuilderCall) (later : Snapshot),
          EveryStep step Legal state.store calls →
          later.Consistent →
          state.table.entries <+: later.entries →
          ∃ again,
            parse context expression (run step state.store calls) later =
                .ok (slot, again) ∧
              again.table = later := by
  have invariant := reachable.invariant
  have follows := TreeParser.parse_follows context expression invariant table
  constructor
  · constructor
    · intro error
      generalize parse context expression store table = outcome at follows ⊢
      generalize TreeParser.parse context expression table = expected at follows ⊢
      cases follows with
      | error other =>
          exact ⟨congrArg _ ∘ Except.error.inj, congrArg _ ∘ Except.error.inj⟩
      | ok _ =>
          exact ⟨nofun, nofun⟩
    · intro slot state parsed
      rw [parsed] at follows
      obtain ⟨⟨tree, grown⟩, treeParsed, built, rfl⟩ := follows.ok_of
      refine ⟨built.invariant, built.inside, ?_, ?_⟩
      · rw [treeParsed, built.tree_eq]
      · intro index inside
        exact ⟨built.growth.inside inside, built.tree_old invariant inside⟩
  · intro slot state parsed calls later legal laterConsistent registered
    rw [parsed] at follows
    obtain ⟨⟨tree, grown⟩, treeParsed, built, rfl⟩ := follows.ok_of
    have treeAgain :=
      TreeParser.parse_again consistent treeParsed laterConsistent registered
    obtain ⟨laterInvariant, laterGrowth⟩ := AtomStore.run_preserves built.invariant legal
    have followsAgain :=
      TreeParser.parse_follows context expression laterInvariant later
    rw [treeAgain] at followsAgain
    obtain ⟨⟨other, again⟩, parsedAgain, builtAgain, sameTable⟩ := followsAgain.of_ok
    refine ⟨again, ?_, sameTable⟩
    rw [parsedAgain]
    -- Both slots show the tree in the last arena, which has one slot for it.
    have slotInside := laterGrowth.inside built.inside
    have sameSlot : other = slot := by
      apply builtAgain.invariant.tree_injective builtAgain.inside
        (builtAgain.growth.inside slotInside)
      rw [builtAgain.tree_eq, builtAgain.tree_old laterInvariant slotInside,
        laterGrowth.tree built.invariant.wellFormed laterInvariant.wellFormed built.inside,
        built.tree_eq]
    rw [sameSlot]

omit [StringHash] in
/-- `x*y + x` on a new store and a new table, and again on what the first parse leaves. -/
theorem parse_stable_twice :
    ∃ (_ : StringHash) (slot : ℕ) (state again : ParserState),
      parse ⟨"app".toList, ⟨[], 0⟩⟩ "x*y + x".toList .empty .empty = .ok (slot, state) ∧
        parse ⟨"app".toList, ⟨[], 0⟩⟩ "x*y + x".toList state.store state.table =
            .ok (slot, again) ∧
          again.table = state.table := by
  let constant : StringHash := ⟨fun _ => 0⟩
  have empty : SymbolTable.Snapshot.empty.Consistent := Snapshot.Reachable.empty.consistent
  have stable :=
    parse_stable ⟨"app".toList, ⟨[], 0⟩⟩ "x*y + x".toList
      ⟨[], Transition.everyStep_nil, rfl⟩ empty
  have returns :
      (parse ⟨"app".toList, ⟨[], 0⟩⟩ "x*y + x".toList .empty .empty).isOk = true := by
    decide +kernel
  cases parsed : parse ⟨"app".toList, ⟨[], 0⟩⟩ "x*y + x".toList .empty .empty with
  | error error =>
      rw [parsed] at returns
      cases returns
  | ok result =>
      obtain ⟨slot, state⟩ := result
      obtain ⟨_, delivers⟩ := parse_delivers AtomStore.invariant_empty empty parsed
      obtain ⟨again, parsedAgain, sameTable⟩ :=
        stable.2 slot state parsed [] state.table Transition.everyStep_nil
          delivers.continues.healthy.consistent List.prefix_rfl
      exact ⟨constant, slot, state, again, parsed, parsedAgain, sameTable⟩

end Slots

end AtomCore
