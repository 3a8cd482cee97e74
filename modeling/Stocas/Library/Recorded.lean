namespace RecordedOutcomes

/-!
# Computations that may fail and keep a record

A computation has a result or an error, and a record of what happened on the way.
Nothing can read the record, so results do not depend on it.  `Run` says that a
computation succeeds with a record of which every item is good; it is taken apart
along the steps of the computation.
-/

/-- A result or an error, and the record. -/
structure Recorded (ε ω α : Type) where
  result : Except ε α
  record : List ω

variable {ε ω α β : Type}

/-- One step after another; an error ends the computation. -/
def next
    (first : Recorded ε ω α)
    (continue_ : α → Recorded ε ω β) :
    Recorded ε ω β :=
  match first.result with
  | .error error => ⟨.error error, first.record⟩
  | .ok value =>
      let rest := continue_ value
      ⟨rest.result, first.record ++ rest.record⟩

instance : Monad (Recorded ε ω) where
  pure := fun value => ⟨.ok value, []⟩
  bind := next

/-- Fail. -/
def fail (error : ε) : Recorded ε ω α :=
  ⟨.error error, []⟩

/-- Put an item into the record. -/
def note (item : ω) : Recorded ε ω Unit :=
  ⟨.ok (), [item]⟩

/-- Steps may be grouped either way. -/
theorem bind_assoc
    {γ : Type}
    (first : Recorded ε ω α)
    (second : α → Recorded ε ω β)
    (third : β → Recorded ε ω γ) :
    (first >>= second) >>= third = first >>= fun value => second value >>= third := by
  rcases first with ⟨outcome, record⟩
  cases outcome with
  | error error =>
      rfl
  | ok value =>
      change next (next ⟨.ok value, record⟩ second) third =
        next ⟨.ok value, record⟩ (fun value => next (second value) third)
      simp only [next]
      rcases second value with ⟨middle, more⟩
      cases middle with
      | error error =>
          rfl
      | ok result =>
          simp only [List.append_assoc]

/-- A step without a record leaves the computation as it is. -/
@[simp] theorem pure_bind
    (value : α)
    (continue_ : α → Recorded ε ω β) :
    pure value >>= continue_ = continue_ value :=
  rfl

/-- The result of two steps does not depend on the record. -/
theorem result_bind
    (first : Recorded ε ω α)
    (continue_ : α → Recorded ε ω β) :
    (first >>= continue_).result =
      first.result >>= fun value => (continue_ value).result := by
  rcases first with ⟨outcome, record⟩
  cases outcome with
  | error error =>
      rfl
  | ok value =>
      rfl

/-- A computation succeeds, with good items in its record. -/
def Run
    (good : ω → Prop)
    (computation : Recorded ε ω α)
    (value : α) : Prop :=
  computation.result = .ok value ∧ ∀ item ∈ computation.record, good item

variable {good : ω → Prop}

@[simp] theorem run_pure
    {value result : α} :
    Run good (pure value : Recorded ε ω α) result ↔ value = result := by
  constructor
  · intro ran
    exact Except.ok.inj ran.1
  · intro same
    subst value
    exact ⟨rfl, nofun⟩

@[simp] theorem run_fail
    {error : ε}
    {result : α} :
    ¬Run good (fail error : Recorded ε ω α) result := by
  intro ran
  cases ran.1

@[simp] theorem run_note
    {item : ω}
    {result : Unit} :
    Run good (note item : Recorded ε ω Unit) result ↔ good item := by
  constructor
  · intro ran
    exact ran.2 item (List.mem_singleton_self item)
  · intro itemGood
    refine ⟨rfl, ?_⟩
    intro other member
    rwa [List.mem_singleton.mp member]

/-- A computation succeeds when its first step and then the rest do. -/
theorem run_bind
    {first : Recorded ε ω α}
    {continue_ : α → Recorded ε ω β}
    {result : β} :
    Run good (first >>= continue_) result ↔
      ∃ middle, Run good first middle ∧ Run good (continue_ middle) result := by
  rcases first with ⟨outcome, record⟩
  cases outcome with
  | error error =>
      constructor
      · intro ran
        cases ran.1
      · intro steps
        obtain ⟨middle, firstRan, -⟩ := steps
        cases firstRan.1
  | ok value =>
      constructor
      · intro ran
        obtain ⟨returned, allGood⟩ := ran
        have allGood :
            ∀ item ∈ record ++ (continue_ value).record, good item :=
          allGood
        exact ⟨value,
          ⟨rfl, fun item member =>
            allGood item (List.mem_append_left _ member)⟩,
          returned, fun item member =>
            allGood item (List.mem_append_right _ member)⟩
      · intro steps
        obtain ⟨middle, firstRan, restRan⟩ := steps
        have same := Except.ok.inj firstRan.1
        subst middle
        refine ⟨restRan.1, ?_⟩
        intro item member
        rcases List.mem_append.mp member with earlier | later
        · exact firstRan.2 item earlier
        · exact restRan.2 item later

/-- Fewer demands on the record are met too. -/
theorem Run.imp
    {weaker : ω → Prop}
    (implies : ∀ item, good item → weaker item)
    {computation : Recorded ε ω α}
    {result : α}
    (ran : Run good computation result) :
    Run weaker computation result :=
  ⟨ran.1, fun item member => implies item (ran.2 item member)⟩

end RecordedOutcomes
