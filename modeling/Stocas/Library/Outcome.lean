namespace Outcome

/-!
# Computations that may fail

Steps of a computation in `Except` are taken apart and put together by its binds.
-/

universe u v

variable {ε : Type u} {α β : Type v}

/-- After a step that succeeds the computation goes on with its result. -/
@[simp] theorem ok_bind
    (result : α)
    (next : α → Except ε β) :
    (Except.ok result >>= next) = next result :=
  rfl

/-- After a step that fails the computation has failed. -/
@[simp] theorem error_bind
    (error : ε)
    (next : α → Except ε β) :
    (Except.error error >>= next) = .error error :=
  rfl

/-- A computation succeeds when its first step and then the rest do. -/
theorem bind_eq_ok
    {first : Except ε α}
    {next : α → Except ε β}
    {result : β} :
    (first >>= next) = .ok result ↔
      ∃ middle, first = .ok middle ∧ next middle = .ok result := by
  constructor
  · intro succeeds
    cases first with
    | error error =>
        cases succeeds
    | ok middle =>
        exact ⟨middle, rfl, succeeds⟩
  · intro steps
    obtain ⟨middle, first_eq, succeeds⟩ := steps
    subst first
    exact succeeds

/-- A computation fails where one of its steps does. -/
theorem bind_eq_error
    {first : Except ε α}
    {next : α → Except ε β}
    {error : ε} :
    (first >>= next) = .error error ↔
      first = .error error ∨
        ∃ middle, first = .ok middle ∧ next middle = .error error := by
  cases first with
  | error other =>
      simp
  | ok middle =>
      simp

/-- A mapped result comes from a result. -/
theorem map_eq_ok
    {outcome : Except ε α}
    {function : α → β}
    {result : β} :
    outcome.map function = .ok result ↔
      ∃ middle, outcome = .ok middle ∧ function middle = result := by
  cases outcome with
  | error error =>
      simp [Except.map]
  | ok middle =>
      simp [Except.map]

/-- Renaming errors leaves a result alone. -/
@[simp] theorem ok_mapError
    {ζ : Type u}
    (rename : ε → ζ)
    (result : α) :
    (Except.ok result).mapError rename = .ok result :=
  rfl

/-- A result is there before errors are renamed. -/
theorem mapError_eq_ok
    {ζ : Type u}
    {outcome : Except ε α}
    {rename : ε → ζ}
    {result : α} :
    outcome.mapError rename = .ok result ↔ outcome = .ok result := by
  cases outcome with
  | error error =>
      constructor
      · intro impossible
        cases impossible
      · intro impossible
        cases impossible
  | ok middle =>
      rw [ok_mapError, Except.ok.injEq, Except.ok.injEq]

/-- Every error that a computation ends with is an allowed one. -/
def OnlyThrows
    (allowed : ε → Prop)
    (outcome : Except ε α) :
    Prop :=
  ∀ error, outcome = .error error → allowed error

@[simp] theorem onlyThrows_ok
    {allowed : ε → Prop}
    {result : α} :
    OnlyThrows allowed (.ok result) := by
  intro error throws
  cases throws

/-- An error comes from the first step or from the rest. -/
theorem onlyThrows_bind
    {allowed : ε → Prop}
    {first : Except ε α}
    {next : α → Except ε β}
    (firstThrows : OnlyThrows allowed first)
    (nextThrows : ∀ middle, first = .ok middle → OnlyThrows allowed (next middle)) :
    OnlyThrows allowed (first >>= next) := by
  intro error throws
  cases first with
  | error other =>
      cases throws
      exact firstThrows error rfl
  | ok middle =>
      exact nextThrows middle rfl error throws

/-- The first result of a list of attempts, each of which may give none. -/
def firstSuccess
    (exhausted : ε)
    (run : β → Except ε (Option α)) :
    List β → Except ε α
  | [] => .error exhausted
  | attempt :: rest => do
      match ← run attempt with
      | some result => .ok result
      | none => firstSuccess exhausted run rest

/-- Attempts that are mapped one by one give the mapped result. -/
theorem map_firstSuccess
    {exhausted : ε}
    {run : β → Except ε (Option α)}
    {γ : Type v}
    {otherRun : β → Except ε (Option γ)}
    {function : α → γ}
    (mapped : ∀ attempt, (run attempt).map (Option.map function) = otherRun attempt)
    (attempts : List β) :
    (firstSuccess exhausted run attempts).map function =
      firstSuccess exhausted otherRun attempts := by
  induction attempts with
  | nil =>
      rfl
  | cons attempt rest inductionHypothesis =>
      rw [firstSuccess, firstSuccess, ← mapped attempt]
      cases run attempt with
      | error error =>
          rfl
      | ok found =>
          cases found with
          | none =>
              exact inductionHypothesis
          | some result =>
              rfl

/-- An attempt with a result. -/
def accepts : Except ε (Option α) → Bool
  | .ok (some _) => true
  | _ => false

theorem exists_of_accepts
    {outcome : Except ε (Option α)}
    (accepted : accepts outcome = true) :
    ∃ result, outcome = .ok (some result) := by
  cases outcome with
  | error error =>
      cases accepted
  | ok found =>
      cases found with
      | none =>
          cases accepted
      | some result =>
          exact ⟨result, rfl⟩

/-- A result comes from one of the attempts. -/
theorem exists_of_firstSuccess
    {exhausted : ε}
    {run : β → Except ε (Option α)}
    {attempts : List β}
    {result : α}
    (succeeds : firstSuccess exhausted run attempts = .ok result) :
    ∃ attempt ∈ attempts, run attempt = .ok (some result) := by
  induction attempts with
  | nil =>
      cases succeeds
  | cons attempt rest inductionHypothesis =>
      obtain ⟨outcome, ran, continues⟩ := bind_eq_ok.mp succeeds
      cases outcome with
      | none =>
          obtain ⟨later, member, found⟩ := inductionHypothesis continues
          exact ⟨later, by simp [member], found⟩
      | some found =>
          cases continues
          exact ⟨attempt, by simp, ran⟩

/-- Attempts throw what one of them throws, or that none is left. -/
theorem onlyThrows_firstSuccess
    {allowed : ε → Prop}
    {exhausted : ε}
    {run : β → Except ε (Option α)}
    (exhaustedAllowed : allowed exhausted)
    (runThrows : ∀ attempt, OnlyThrows allowed (run attempt))
    (attempts : List β) :
    OnlyThrows allowed (firstSuccess exhausted run attempts) := by
  induction attempts with
  | nil =>
      intro error throws
      cases throws
      exact exhaustedAllowed
  | cons attempt rest inductionHypothesis =>
      refine onlyThrows_bind (runThrows attempt) ?_
      intro outcome _
      cases outcome with
      | none =>
          exact inductionHypothesis
      | some result =>
          exact onlyThrows_ok

/-- A fold throws what one of its steps throws. -/
theorem onlyThrows_foldlM
    {allowed : ε → Prop}
    {step : α → β → Except ε α}
    (stepThrows : ∀ state item, OnlyThrows allowed (step state item))
    (items : List β)
    (start : α) :
    OnlyThrows allowed (items.foldlM step start) := by
  induction items generalizing start with
  | nil =>
      exact onlyThrows_ok
  | cons item rest inductionHypothesis =>
      rw [List.foldlM_cons]
      exact onlyThrows_bind (stepThrows start item)
        (fun middle _ => inductionHypothesis middle)

/-- Attempts that throw nothing succeed with the first one that has a result. -/
theorem firstSuccess_eq_ok_iff
    {exhausted : ε}
    {run : β → Except ε (Option α)}
    (runThrows : ∀ attempt, OnlyThrows (fun _ => False) (run attempt))
    {attempts : List β}
    {result : α} :
    firstSuccess exhausted run attempts = .ok result ↔
      ∃ attempt,
        attempts.find? (fun attempt => accepts (run attempt)) = some attempt ∧
        run attempt = .ok (some result) := by
  induction attempts with
  | nil =>
      simp [firstSuccess]
  | cons attempt rest inductionHypothesis =>
      rw [firstSuccess, List.find?_cons]
      cases ran : run attempt with
      | error error =>
          exact (runThrows attempt error ran).elim
      | ok outcome =>
          cases outcome with
          | none =>
              simpa [accepts] using inductionHypothesis
          | some found =>
              simp [accepts, ran]

end Outcome
