import Mathlib.Data.List.Infix

namespace Transition

/-!
# Finite runs of deterministic transition functions

A component whose calls are total is a function `step` from a state and an
action to the next state.  This module fixes what a finite run is, what it
means for a property to hold in every state of a run and for a condition to
hold at every step of it, and packages the induction that turns facts about
one step into facts about whole runs.
-/

variable {State Action : Type*}

/-- The state reached by performing the actions in order. -/
def run
    (step : State → Action → State)
    (start : State)
    (actions : List Action) : State :=
  actions.foldl step start

@[simp] theorem run_nil
    (step : State → Action → State)
    (start : State) :
    run step start [] = start :=
  rfl

@[simp] theorem run_cons
    (step : State → Action → State)
    (start : State)
    (action : Action)
    (rest : List Action) :
    run step start (action :: rest) =
      run step (step start action) rest :=
  rfl

/-- The property holds in the start state and after every prefix of the run. -/
def Throughout
    (step : State → Action → State)
    (property : State → Prop)
    (start : State)
    (actions : List Action) : Prop :=
  ∀ earlier,
    earlier <+: actions →
    property (run step start earlier)

/-- The condition holds between each state of the run and its next action. -/
def EveryStep
    (step : State → Action → State)
    (condition : State → Action → Prop)
    (start : State)
    (actions : List Action) : Prop :=
  ∀ earlier action,
    earlier ++ [action] <+: actions →
    condition (run step start earlier) action

section Steps

variable {step : State → Action → State}

/-- A run with no action stays in its start state. -/
theorem throughout_nil
    {property : State → Prop}
    {start : State} :
    Throughout step property start [] ↔ property start := by
  simp [Throughout]

/-- A property of a nonempty run splits off its first state. -/
theorem throughout_cons
    {property : State → Prop}
    {start : State}
    {action : Action}
    {rest : List Action} :
    Throughout step property start (action :: rest) ↔
      property start ∧
        Throughout step property (step start action) rest := by
  constructor
  · intro holds
    refine ⟨holds [] (List.nil_prefix), ?_⟩
    intro earlier isPrefix
    exact holds (action :: earlier)
      (List.cons_prefix_cons.mpr ⟨rfl, isPrefix⟩)
  · rintro ⟨atStart, afterwards⟩ earlier isPrefix
    cases earlier with
    | nil =>
        exact atStart
    | cons first later =>
        obtain ⟨rfl, laterPrefix⟩ :=
          List.cons_prefix_cons.mp isPrefix
        exact afterwards later laterPrefix

/-- A run with no action meets every step condition. -/
theorem everyStep_nil
    {condition : State → Action → Prop}
    {start : State} :
    EveryStep step condition start [] := by
  intro earlier action isPrefix
  simp at isPrefix

/-- A step condition on a nonempty run splits off its first step. -/
theorem everyStep_cons
    {condition : State → Action → Prop}
    {start : State}
    {action : Action}
    {rest : List Action} :
    EveryStep step condition start (action :: rest) ↔
      condition start action ∧
        EveryStep step condition (step start action) rest := by
  constructor
  · intro holds
    refine ⟨holds [] action ?_, ?_⟩
    · simp
    · intro earlier next isPrefix
      exact holds (action :: earlier) next
        (List.cons_prefix_cons.mpr ⟨rfl, isPrefix⟩)
  · rintro ⟨atStart, afterwards⟩ earlier next isPrefix
    cases earlier with
    | nil =>
        have same : next = action := by
          simpa using isPrefix
        simpa [same] using atStart
    | cons first later =>
        obtain ⟨rfl, laterPrefix⟩ :=
          List.cons_prefix_cons.mp isPrefix
        exact afterwards later next laterPrefix

/-- What every legal step preserves holds in every state of a legal run. -/
theorem throughout_of_preserved
    {invariant : State → Prop}
    {legal : State → Action → Prop}
    (preserves :
      ∀ {state action},
        invariant state →
        legal state action →
        invariant (step state action))
    {start : State}
    {actions : List Action}
    (atStart : invariant start)
    (allLegal : EveryStep step legal start actions) :
    Throughout step invariant start actions := by
  induction actions generalizing start with
  | nil =>
      exact throughout_nil.mpr atStart
  | cons action rest inductionHypothesis =>
      obtain ⟨firstLegal, restLegal⟩ := everyStep_cons.mp allLegal
      exact throughout_cons.mpr
        ⟨atStart,
          inductionHypothesis (preserves atStart firstLegal) restLegal⟩

/--
Two step conditions that agree in every state of the invariant hold at every
step of the same runs.
-/
theorem everyStep_congr
    (invariant : State → Prop)
    (legal : Action → Prop)
    {first second : State → Action → Prop}
    (preserves :
      ∀ {state action},
        invariant state →
        invariant (step state action))
    (agree :
      ∀ {state action},
        invariant state →
        legal action →
        (first state action ↔ second state action))
    {start : State}
    {actions : List Action}
    (atStart : invariant start)
    (allLegal : ∀ action ∈ actions, legal action) :
    EveryStep step first start actions ↔
      EveryStep step second start actions := by
  induction actions generalizing start with
  | nil =>
      exact ⟨fun _ => everyStep_nil, fun _ => everyStep_nil⟩
  | cons action rest inductionHypothesis =>
      rw [List.forall_mem_cons] at allLegal
      rw [everyStep_cons, everyStep_cons, agree atStart allLegal.1,
        inductionHypothesis (preserves atStart) allLegal.2]

/--
Exact characterisation of safe runs.  When the invariant implies the property,
every step meeting the condition keeps the invariant, and every step missing it
leaves a state without the property, the safe runs are exactly the runs all of
whose steps meet the condition.
-/
theorem throughout_iff_everyStep
    (invariant : State → Prop)
    (legal : Action → Prop)
    {property : State → Prop}
    {condition : State → Action → Prop}
    (safe : ∀ {state}, invariant state → property state)
    (preserves :
      ∀ {state action},
        invariant state →
        legal action →
        condition state action →
        invariant (step state action))
    (breaks :
      ∀ {state action},
        invariant state →
        legal action →
        ¬ condition state action →
        ¬ property (step state action))
    {start : State}
    {actions : List Action}
    (atStart : invariant start)
    (allLegal : ∀ action ∈ actions, legal action) :
    Throughout step property start actions ↔
      EveryStep step condition start actions := by
  induction actions generalizing start with
  | nil =>
      exact ⟨fun _ => everyStep_nil,
        fun _ => throughout_nil.mpr (safe atStart)⟩
  | cons action rest inductionHypothesis =>
      have firstLegal : legal action := allLegal action (by simp)
      have restLegal : ∀ later ∈ rest, legal later :=
        fun later member => allLegal later (by simp [member])
      rw [throughout_cons, everyStep_cons]
      by_cases met : condition start action
      · have kept := preserves atStart firstLegal met
        rw [inductionHypothesis kept restLegal]
        exact ⟨fun both => ⟨met, both.2⟩,
          fun both => ⟨safe atStart, both.2⟩⟩
      · constructor
        · rintro ⟨-, afterwards⟩
          exact (breaks atStart firstLegal met
            (afterwards [] List.nil_prefix)).elim
        · rintro ⟨holds, -⟩
          exact (met holds).elim

end Steps

end Transition
