import Stocas.Library.WorkerPool

namespace WorkerPool

/-!
# Workers that crash

When the work on one index of a range crashes, the worker of that range never gets past the
index, so the pool is never finished; and a schedule that gives every worker enough steps
ends everything.
-/

variable {Private Output : Type}

/-- After so many steps the work on the index ends, with an output or a crash. -/
inductive Ends (job : Job Private Output) (index : ℕ) : Private → ℕ → Prop where
  | deliver
      {inner : Private}
      {output : Output} :
      job.advance index inner = .deliver output →
      Ends job index inner 1
  | crash
      {inner : Private} :
      job.advance index inner = .crash →
      Ends job index inner 1
  | proceed
      {inner next : Private}
      {steps : ℕ} :
      job.advance index inner = .proceed next →
      Ends job index next steps →
      Ends job index inner (steps + 1)

/-- From a private state, the work on the index crashes. -/
inductive Crashes (job : Job Private Output) (index : ℕ) : Private → Prop where
  | crash
      {inner : Private} :
      job.advance index inner = .crash →
      Crashes job index inner
  | proceed
      {inner next : Private} :
      job.advance index inner = .proceed next →
      Crashes job index next →
      Crashes job index inner

variable {job : Job Private Output} {cost : ℕ → ℕ} {size : ℕ} {ranges : List IndexRange}

/-- The work on an index takes a step at least. -/
theorem Ends.steps_pos
    {index steps : ℕ}
    {inner : Private}
    (ends : Ends job index inner steps) :
    0 < steps := by
  cases ends with
  | deliver _ | crash _ =>
      exact Nat.one_pos
  | proceed _ _ =>
      exact Nat.succ_pos _

/-- The work that crashes delivers nothing. -/
theorem Crashes.not_deliver
    {index : ℕ}
    {inner : Private}
    {output : Output}
    (crashes : Crashes job index inner) :
    job.advance index inner ≠ .deliver output := by
  intro delivers
  cases crashes with
  | crash crash =>
      rw [delivers] at crash
      cases crash
  | proceed proceeds _ =>
      rw [delivers] at proceeds
      cases proceeds

/-- The work that crashes still does so after a step. -/
theorem Crashes.next
    {index : ℕ}
    {inner next : Private}
    (crashes : Crashes job index inner)
    (proceeds : job.advance index inner = .proceed next) :
    Crashes job index next := by
  cases crashes with
  | crash crash =>
      rw [proceeds] at crash
      cases crash
  | proceed proceedsTo crashes =>
      rw [proceeds] at proceedsTo
      cases proceedsTo
      exact crashes

/-- The steps that a worker has before it, unless the pool ends first. -/
inductive StepsLeft
    (job : Job Private Output)
    (cost : ℕ → ℕ)
    (worker : Worker Private) :
    ℕ → Prop where
  | finished :
      worker.stop ≤ worker.next →
      StepsLeft job cost worker 0
  | working
      {steps : ℕ} :
      worker.next < worker.stop →
      Ends job worker.next worker.inner steps →
      StepsLeft job cost worker (steps + effort cost (worker.next + 1, worker.stop))

/-- A worker at the start of an index. -/
theorem stepsLeft_start
    {worker : Worker Private}
    (ends :
      worker.next < worker.stop →
      Ends job worker.next worker.inner (cost worker.next)) :
    StepsLeft job cost worker (effort cost (worker.next, worker.stop)) := by
  by_cases inRange : worker.next < worker.stop
  · rw [effort_of_lt inRange]
    exact .working inRange (ends inRange)
  · have atEnd : worker.stop ≤ worker.next := Nat.not_lt.mp inRange
    rw [effort_of_le atEnd]
    exact .finished atEnd

/-- A worker has reached its end when no step is left. -/
theorem StepsLeft.finished_iff
    {worker : Worker Private}
    {left : ℕ}
    (holds : StepsLeft job cost worker left) :
    worker.stop ≤ worker.next ↔ left = 0 := by
  cases holds with
  | finished atEnd =>
      simp [atEnd]
  | working inRange ends =>
      have positive := ends.steps_pos
      omega

/-- A worker is in its range, and not past an index at which it crashes. -/
structure WorkerBlocked
    (job : Job Private Output)
    (cost : ℕ → ℕ)
    (range : IndexRange)
    (worker : Worker Private)
    (left : ℕ) :
    Prop where
  stop_eq : worker.stop = range.2
  left : StepsLeft job cost worker left
  blocked :
    ∀ index,
      range.1 ≤ index →
      index < range.2 →
      Crashes job index job.initial →
      worker.next < index ∨ worker.next = index ∧ Crashes job index worker.inner

/-- The invariant of the runs that have not crashed. -/
structure Blocked
    (job : Job Private Output)
    (cost : ℕ → ℕ)
    (ranges : List IndexRange)
    (left : ℕ → ℕ)
    (pool : Pool Private Output) :
    Prop where
  running : pool.terminated = false
  length_workers : pool.workers.length = ranges.length
  worker :
    ∀ {place : ℕ} {range : IndexRange} {worker : Worker Private},
      ranges[place]? = some range →
      pool.workers[place]? = some worker →
      WorkerBlocked job cost range worker (left place)

/-- The work on every index starts fresh and ends. -/
def AllEnd (job : Job Private Output) (cost : ℕ → ℕ) (size : ℕ) : Prop :=
  ∀ index < size, Ends job index job.initial (cost index)

/-- The chosen worker changes, and the others stay where they are. -/
theorem Blocked.update
    {left : ℕ → ℕ}
    {pool : Pool Private Output}
    (blocked : Blocked job cost ranges left pool)
    {chosen : ℕ}
    {changed : Worker Private}
    {rest : ℕ}
    (results : List Output)
    (chosenBlocked :
      ∀ {range},
        ranges[chosen]? = some range →
        WorkerBlocked job cost range changed rest) :
    Blocked job cost ranges (Function.update left chosen rest)
      ⟨results, pool.workers.set chosen changed, false⟩ := by
  refine ⟨rfl, ?_, ?_⟩
  · rw [List.length_set]
    exact blocked.length_workers
  · intro place range worker isRange isWorker
    rcases getElem?_set_cases isWorker with ⟨rfl, rfl⟩ | ⟨notChosen, isOther⟩
    · rw [Function.update_self]
      exact chosenBlocked isRange
    · rw [Function.update_of_ne notChosen]
      exact blocked.worker isRange isOther

/-- Nothing changes when the chosen worker has no step left. -/
theorem Blocked.idle
    {left : ℕ → ℕ}
    {pool : Pool Private Output}
    (blocked : Blocked job cost ranges left pool)
    {chosen : ℕ}
    (atEnd : ∀ worker, pool.workers[chosen]? = some worker → worker.stop ≤ worker.next) :
    Blocked job cost ranges (Function.update left chosen (left chosen - 1)) pool := by
  refine ⟨blocked.running, blocked.length_workers, ?_⟩
  intro place range worker isRange isWorker
  have workerBlocked := blocked.worker isRange isWorker
  by_cases isChosen : place = chosen
  · subst isChosen
    have noneLeft := workerBlocked.left.finished_iff.mp (atEnd worker isWorker)
    rw [Function.update_self, noneLeft]
    rwa [noneLeft] at workerBlocked
  · rwa [Function.update_of_ne isChosen]

/-- A worker that goes on with the index it is at. -/
theorem WorkerBlocked.proceed
    {range : IndexRange}
    {worker : Worker Private}
    {left steps : ℕ}
    {inner : Private}
    (workerBlocked : WorkerBlocked job cost range worker left)
    (inRange : worker.next < worker.stop)
    (proceeds : job.advance worker.next worker.inner = .proceed inner)
    (ends : Ends job worker.next inner steps) :
    WorkerBlocked job cost range ⟨worker.next, worker.stop, inner⟩
      (steps + effort cost (worker.next + 1, worker.stop)) := by
  refine ⟨workerBlocked.stop_eq, .working inRange ends, ?_⟩
  intro index lower upper crashes
  rcases workerBlocked.blocked index lower upper crashes with
    before | ⟨here, innerCrashes⟩
  · exact Or.inl before
  · subst here
    exact Or.inr ⟨rfl, innerCrashes.next proceeds⟩

/-- A worker that goes on to the next index. -/
theorem WorkerBlocked.deliver
    (allEnd : AllEnd job cost size)
    {range : IndexRange}
    {worker : Worker Private}
    {left : ℕ}
    {output : Output}
    (workerBlocked : WorkerBlocked job cost range worker left)
    (stopInside : worker.stop ≤ size)
    (delivers : job.advance worker.next worker.inner = .deliver output) :
    WorkerBlocked job cost range ⟨worker.next + 1, worker.stop, job.initial⟩
      (effort cost (worker.next + 1, worker.stop)) := by
  refine ⟨workerBlocked.stop_eq, stepsLeft_start fun inside => ?_, ?_⟩
  · exact allEnd _ (inside.trans_le stopInside)
  · intro index lower upper crashes
    rcases workerBlocked.blocked index lower upper crashes with
      before | ⟨here, innerCrashes⟩
    · rcases Nat.eq_or_lt_of_le (Nat.succ_le_of_lt before) with isNext | later
      · exact Or.inr ⟨isNext, crashes⟩
      · exact Or.inl later
    · subst here
      exact absurd delivers innerCrashes.not_deliver

/-- One step crashes, or takes a step off what is left for the chosen worker. -/
theorem step_blocked
    (allEnd : AllEnd job cost size)
    (inBounds : ∀ range ∈ ranges, range.2 ≤ size)
    {left : ℕ → ℕ}
    {pool : Pool Private Output}
    (poolBlocked : Blocked job cost ranges left pool)
    (chosen : ℕ) :
    (step job pool chosen).terminated = true ∨
      Blocked job cost ranges (Function.update left chosen (left chosen - 1))
        (step job pool chosen) := by
  rw [step, poolBlocked.running, if_neg Bool.false_ne_true]
  cases isWorker : pool.workers[chosen]? with
  | none =>
      exact Or.inr (poolBlocked.idle (by simp [isWorker]))
  | some worker =>
      have chosenInside : chosen < ranges.length := by
        rw [← poolBlocked.length_workers]
        exact (List.getElem?_eq_some_iff.mp isWorker).1
      have isRange := List.getElem?_eq_getElem chosenInside
      have workerBlocked := poolBlocked.worker isRange isWorker
      have stopInside : worker.stop ≤ size :=
        workerBlocked.stop_eq.trans_le (inBounds _ (List.getElem_mem chosenInside))
      have stepsLeft := workerBlocked.left
      generalize same : left chosen = rest at stepsLeft
      cases stepsLeft with
      | finished atEnd =>
          have unchanged :
              Blocked job cost ranges
                (Function.update left chosen (left chosen - 1)) pool :=
            poolBlocked.idle (by simp [isWorker, atEnd])
          rw [same] at unchanged
          refine Or.inr ?_
          simpa only [if_neg (Nat.not_lt.mpr atEnd)] using unchanged
      | @working steps inRange ends =>
          simp only [if_pos inRange]
          cases ends with
          | crash crash =>
              rw [crash]
              exact Or.inl rfl
          | @proceed _ inner steps proceeds ends =>
              rw [proceeds, Nat.add_right_comm, Nat.add_sub_cancel]
              refine Or.inr (poolBlocked.update pool.results ?_)
              intro range found
              cases isRange.symm.trans found
              exact workerBlocked.proceed inRange proceeds ends
          | deliver delivers =>
              rw [delivers, Nat.add_sub_cancel_left]
              refine Or.inr (poolBlocked.update _ ?_)
              intro range found
              cases isRange.symm.trans found
              exact workerBlocked.deliver allEnd stopInside delivers

/-- At the start no worker is past anything. -/
theorem start_blocked
    (allEnd : AllEnd job cost size)
    (inBounds : ∀ range ∈ ranges, range.2 ≤ size)
    (results : List Output) :
    Blocked job cost ranges (fun place => ((ranges.map (effort cost)).getD place 0))
      (start job results ranges) := by
  refine ⟨rfl, List.length_map _, ?_⟩
  intro place range worker isRange isWorker
  rw [start, List.getElem?_map, isRange] at isWorker
  cases isWorker
  rw [List.getD_eq_getElem?_getD, List.getElem?_map, isRange]
  refine ⟨rfl, stepsLeft_start fun inRange => ?_, ?_⟩
  · exact allEnd _ (inRange.trans_le (inBounds range (List.mem_of_getElem? isRange)))
  · intro index lower _ crashes
    rcases Nat.eq_or_lt_of_le lower with isFirst | later
    · exact Or.inr ⟨isFirst, crashes⟩
    · exact Or.inl later

/-- After a crash no step changes anything. -/
theorem run_terminated
    {pool : Pool Private Output}
    (terminated : pool.terminated = true)
    (schedule : List ℕ) :
    Transition.run (step job) pool schedule = pool := by
  induction schedule with
  | nil =>
      rfl
  | cons chosen rest inductionHypothesis =>
      have unchanged : step job pool chosen = pool := by
        rw [step, if_pos terminated]
      rw [Transition.run_cons, unchanged]
      exact inductionHypothesis

/-- A run crashes, or takes from each worker the steps that the schedule gives it. -/
theorem run_blocked
    (allEnd : AllEnd job cost size)
    (inBounds : ∀ range ∈ ranges, range.2 ≤ size)
    {left : ℕ → ℕ}
    {pool : Pool Private Output}
    (blocked : Blocked job cost ranges left pool)
    (schedule : List ℕ) :
    (Transition.run (step job) pool schedule).terminated = true ∨
      Blocked job cost ranges (fun place => left place - schedule.count place)
        (Transition.run (step job) pool schedule) := by
  induction schedule generalizing pool left with
  | nil =>
      exact Or.inr blocked
  | cons chosen rest inductionHypothesis =>
      rw [Transition.run_cons]
      rcases step_blocked allEnd inBounds blocked chosen with terminated | later
      · rw [run_terminated terminated]
        exact Or.inl terminated
      · rw [← update_sub_count]
        exact inductionHypothesis later

/-- A worker with an index at which it crashes does not reach its end. -/
theorem Blocked.not_finished
    {left : ℕ → ℕ}
    {pool : Pool Private Output}
    (blocked : Blocked job cost ranges left pool)
    {range : IndexRange}
    (member : range ∈ ranges)
    {index : ℕ}
    (lower : range.1 ≤ index)
    (upper : index < range.2)
    (crashes : Crashes job index job.initial) :
    ∃ place < ranges.length, 0 < left place ∧ ¬pool.Finished := by
  obtain ⟨place, rangeInside, rfl⟩ := List.getElem_of_mem member
  have workerInside : place < pool.workers.length := by
    rwa [blocked.length_workers]
  have workerBlocked := blocked.worker (List.getElem?_eq_getElem rangeInside)
    (List.getElem?_eq_getElem workerInside)
  have notPast : pool.workers[place].next ≤ index := by
    rcases workerBlocked.blocked index lower upper crashes with before | ⟨here, -⟩
    · exact before.le
    · exact here.le
  have notEnd : ¬pool.workers[place].stop ≤ pool.workers[place].next := by
    rw [workerBlocked.stop_eq]
    exact Nat.not_le.mpr (notPast.trans_lt upper)
  refine ⟨place, rangeInside, Nat.pos_of_ne_zero ?_, ?_⟩
  · exact fun isZero => notEnd (workerBlocked.left.finished_iff.mpr isZero)
  · exact fun finished => notEnd (finished.2 _ (List.getElem_mem workerInside))

end WorkerPool
