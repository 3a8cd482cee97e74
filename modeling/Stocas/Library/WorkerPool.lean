import Mathlib.Algebra.BigOperators.Intervals
import Stocas.Library.Run

namespace WorkerPool

/-!
# Workers on ranges of one list

Each worker fills its own range of a shared list of results, one index after the other,
and works on an index in a private state.  A schedule lists which worker takes the next
step.  When the work on every index ends with its output, no schedule can change what is
delivered: the finished pool holds the outputs in their order.
-/

variable {Private Output : Type}

/-- What a worker does in one step. -/
inductive Progress (Private Output : Type) where
  | proceed (next : Private)
  | deliver (output : Output)
  | crash

/-- The work on an index: where it starts, and its steps. -/
structure Job (Private Output : Type) where
  initial : Private
  advance : ℕ → Private → Progress Private Output

/-- A worker at an index, with the end of its range. -/
structure Worker (Private : Type) where
  next : ℕ
  stop : ℕ
  inner : Private

/-- The shared results and the workers; a crash ends everything. -/
structure Pool (Private Output : Type) where
  results : List Output
  workers : List (Worker Private)
  terminated : Bool

/-- A range of indices: its first, and the first after it. -/
abbrev IndexRange : Type := ℕ × ℕ

variable (job : Job Private Output)

/-- No worker has taken a step. -/
def start (results : List Output) (ranges : List IndexRange) : Pool Private Output where
  results := results
  workers := ranges.map fun range => ⟨range.1, range.2, job.initial⟩
  terminated := false

/-- One step of the chosen worker. -/
def step (pool : Pool Private Output) (chosen : ℕ) : Pool Private Output :=
  if pool.terminated then
    pool
  else
    match pool.workers[chosen]? with
    | none => pool
    | some worker =>
        if worker.next < worker.stop then
          match job.advance worker.next worker.inner with
          | .proceed inner =>
              { pool with workers := pool.workers.set chosen { worker with inner := inner } }
          | .deliver output =>
              { pool with
                results := pool.results.set worker.next output
                workers :=
                  pool.workers.set chosen ⟨worker.next + 1, worker.stop, job.initial⟩ }
          | .crash => { pool with terminated := true }
        else
          pool

/-- Every worker has reached the end of its range. -/
def Pool.Finished (pool : Pool Private Output) : Prop :=
  pool.terminated = false ∧ ∀ worker ∈ pool.workers, worker.stop ≤ worker.next

instance (pool : Pool Private Output) : Decidable pool.Finished :=
  inferInstanceAs (Decidable (_ ∧ _))

/-- From a private state, the work on the index ends with the output. -/
inductive Finishes (index : ℕ) : Private → Output → ℕ → Prop where
  | deliver
      {inner : Private}
      {output : Output} :
      job.advance index inner = .deliver output →
      Finishes index inner output 1
  | proceed
      {inner next : Private}
      {output : Output}
      {steps : ℕ} :
      job.advance index inner = .proceed next →
      Finishes index next output steps →
      Finishes index inner output (steps + 1)

section Runs

variable (output : ℕ → Output) (cost : ℕ → ℕ)

/-- The steps of a worker on a range of indices. -/
def effort (range : IndexRange) : ℕ :=
  ∑ index ∈ Finset.Ico range.1 range.2, cost index

/-- The steps that a worker has before it. -/
inductive Remaining (worker : Worker Private) : ℕ → Prop where
  | finished :
      worker.stop ≤ worker.next →
      Remaining worker 0
  | working
      {steps : ℕ} :
      worker.next < worker.stop →
      Finishes job worker.next worker.inner (output worker.next) steps →
      Remaining worker (steps + effort cost (worker.next + 1, worker.stop))

/-- A worker is in its range, and what is before it is delivered. -/
structure WorkerFollows
    (results : List Output)
    (range : IndexRange)
    (worker : Worker Private)
    (remaining : ℕ) :
    Prop where
  stop_eq : worker.stop = range.2
  delivered :
    ∀ index,
      range.1 ≤ index →
      index < worker.next →
      results[index]? = some (output index)
  remaining : Remaining job output cost worker remaining

/-- The invariant of the runs, with the steps that remain for each worker. -/
structure Follows
    (size : ℕ)
    (ranges : List IndexRange)
    (remaining : ℕ → ℕ)
    (pool : Pool Private Output) :
    Prop where
  running : pool.terminated = false
  length_results : pool.results.length = size
  length_workers : pool.workers.length = ranges.length
  worker :
    ∀ {place : ℕ} {range : IndexRange} {worker : Worker Private},
      ranges[place]? = some range →
      pool.workers[place]? = some worker →
      WorkerFollows job output cost pool.results range worker (remaining place)

/-- The work on an index takes a step at least. -/
theorem Finishes.steps_pos
    {job : Job Private Output}
    {index steps : ℕ}
    {inner : Private}
    {delivered : Output}
    (finishes : Finishes job index inner delivered steps) :
    0 < steps := by
  cases finishes with
  | deliver _ =>
      exact Nat.one_pos
  | proceed _ _ =>
      exact Nat.succ_pos _

variable {job output cost}
variable {size : ℕ} {ranges : List IndexRange}

/-- A range that is not empty takes the steps of its first index first. -/
theorem effort_of_lt
    {first last : ℕ}
    (inRange : first < last) :
    effort cost (first, last) = cost first + effort cost (first + 1, last) :=
  Finset.sum_eq_sum_Ico_succ_bot inRange cost

/-- An empty range takes no step. -/
theorem effort_of_le
    {first last : ℕ}
    (atEnd : last ≤ first) :
    effort cost (first, last) = 0 := by
  simp [effort, atEnd]

/-- A worker of a pool in which one worker changed. -/
theorem getElem?_set_cases
    {workers : List (Worker Private)}
    {chosen place : ℕ}
    {changed worker : Worker Private}
    (isWorker : (workers.set chosen changed)[place]? = some worker) :
    place = chosen ∧ worker = changed ∨
      place ≠ chosen ∧ workers[place]? = some worker := by
  rw [List.getElem?_set] at isWorker
  by_cases isChosen : chosen = place
  · rw [if_pos isChosen] at isWorker
    obtain ⟨-, same⟩ := Option.ite_none_right_eq_some.mp isWorker
    exact Or.inl ⟨isChosen.symm, (Option.some.inj same).symm⟩
  · rw [if_neg isChosen] at isWorker
    exact Or.inr ⟨Ne.symm isChosen, isWorker⟩

/-- The first step of a schedule and the later ones, counted together. -/
theorem update_sub_count
    (remaining : ℕ → ℕ)
    (chosen : ℕ)
    (rest : List ℕ) :
    (fun place =>
      Function.update remaining chosen (remaining chosen - 1) place - rest.count place) =
      fun place => remaining place - (chosen :: rest).count place := by
  funext place
  by_cases isChosen : place = chosen
  · rw [isChosen, Function.update_self, List.count_cons_self, Nat.sub_sub, Nat.add_comm 1]
  · rw [Function.update_of_ne isChosen, List.count_cons_of_ne (Ne.symm isChosen)]

/-- A worker at the start of an index. -/
theorem remaining_start
    {worker : Worker Private}
    (finishes :
      worker.next < worker.stop →
      Finishes job worker.next worker.inner (output worker.next) (cost worker.next)) :
    Remaining job output cost worker (effort cost (worker.next, worker.stop)) := by
  by_cases inRange : worker.next < worker.stop
  · rw [effort_of_lt inRange]
    exact .working inRange (finishes inRange)
  · have atEnd : worker.stop ≤ worker.next := Nat.not_lt.mp inRange
    rw [effort_of_le atEnd]
    exact .finished atEnd

/-- A worker has reached its end when no step remains. -/
theorem Remaining.finished_iff
    {worker : Worker Private}
    {remaining : ℕ}
    (holds : Remaining job output cost worker remaining) :
    worker.stop ≤ worker.next ↔ remaining = 0 := by
  cases holds with
  | finished atEnd =>
      simp [atEnd]
  | working inRange finishes =>
      have positive := finishes.steps_pos
      omega

/-- Delivering what belongs to an index keeps what is delivered. -/
theorem WorkerFollows.deliver
    {results : List Output}
    {range : IndexRange}
    {worker : Worker Private}
    {remaining : ℕ}
    (follows : WorkerFollows job output cost results range worker remaining)
    {index : ℕ}
    (inside : index < results.length) :
    WorkerFollows job output cost (results.set index (output index)) range worker
      remaining := by
  refine ⟨follows.stop_eq, ?_, follows.remaining⟩
  intro other lower upper
  rw [List.getElem?_set]
  split_ifs with same
  · rw [← same]
  · exact follows.delivered other lower upper

/-- The work on every index starts fresh and ends with its output. -/
def Works
    (job : Job Private Output)
    (output : ℕ → Output)
    (cost : ℕ → ℕ)
    (size : ℕ) :
    Prop :=
  ∀ index < size, Finishes job index job.initial (output index) (cost index)

/-- The chosen worker changes, and the others follow the new results. -/
theorem Follows.update
    {remaining : ℕ → ℕ}
    {pool : Pool Private Output}
    (follows : Follows job output cost size ranges remaining pool)
    {chosen : ℕ}
    {results : List Output}
    {changed : Worker Private}
    {left : ℕ}
    (sameLength : results.length = pool.results.length)
    (others :
      ∀ {range worker rest},
        WorkerFollows job output cost pool.results range worker rest →
        WorkerFollows job output cost results range worker rest)
    (chosenFollows :
      ∀ {range},
        ranges[chosen]? = some range →
        WorkerFollows job output cost results range changed left) :
    Follows job output cost size ranges
      (Function.update remaining chosen left)
      ⟨results, pool.workers.set chosen changed, false⟩ := by
  refine ⟨rfl, sameLength.trans follows.length_results, ?_, ?_⟩
  · rw [List.length_set]
    exact follows.length_workers
  · intro place range worker isRange isWorker
    rcases getElem?_set_cases isWorker with ⟨rfl, rfl⟩ | ⟨notChosen, isOther⟩
    · rw [Function.update_self]
      exact chosenFollows isRange
    · rw [Function.update_of_ne notChosen]
      exact others (follows.worker isRange isOther)

/-- Nothing changes when the chosen worker has no step left. -/
theorem Follows.idle
    {remaining : ℕ → ℕ}
    {pool : Pool Private Output}
    (follows : Follows job output cost size ranges remaining pool)
    {chosen : ℕ}
    (atEnd : ∀ worker, pool.workers[chosen]? = some worker → worker.stop ≤ worker.next) :
    Follows job output cost size ranges
      (Function.update remaining chosen (remaining chosen - 1)) pool := by
  refine ⟨follows.running, follows.length_results, follows.length_workers, ?_⟩
  intro place range worker isRange isWorker
  have workerFollows := follows.worker isRange isWorker
  by_cases isChosen : place = chosen
  · subst isChosen
    have noneLeft := workerFollows.remaining.finished_iff.mp (atEnd worker isWorker)
    rw [Function.update_self, noneLeft]
    rwa [noneLeft] at workerFollows
  · rwa [Function.update_of_ne isChosen]

/-- One step takes a step off what remains for the chosen worker. -/
theorem step_follows
    (works : Works job output cost size)
    (inBounds : ∀ range ∈ ranges, range.2 ≤ size)
    {remaining : ℕ → ℕ}
    {pool : Pool Private Output}
    (follows : Follows job output cost size ranges remaining pool)
    (chosen : ℕ) :
    Follows job output cost size ranges
      (Function.update remaining chosen (remaining chosen - 1))
      (step job pool chosen) := by
  rw [step, follows.running, if_neg Bool.false_ne_true]
  cases isWorker : pool.workers[chosen]? with
  | none =>
      exact follows.idle (by simp [isWorker])
  | some worker =>
      have chosenInside : chosen < ranges.length := by
        rw [← follows.length_workers]
        exact (List.getElem?_eq_some_iff.mp isWorker).1
      have isRange := List.getElem?_eq_getElem chosenInside
      have workerFollows := follows.worker isRange isWorker
      have stopInside : worker.stop ≤ size :=
        workerFollows.stop_eq.trans_le (inBounds _ (List.getElem_mem chosenInside))
      obtain ⟨stop_eq, delivered, left⟩ := workerFollows
      generalize same : remaining chosen = rest at left
      cases left with
      | finished atEnd =>
          have unchanged : Follows job output cost size ranges
              (Function.update remaining chosen (remaining chosen - 1)) pool :=
            follows.idle (by simp [isWorker, atEnd])
          rw [same] at unchanged
          simpa only [if_neg (Nat.not_lt.mpr atEnd)] using unchanged
      | @working steps inRange finishes =>
          have indexInside : worker.next < size := inRange.trans_le stopInside
          simp only [if_pos inRange]
          cases finishes with
          | @proceed _ inner _ steps proceeds finishes =>
              have later :
                  Remaining job output cost ⟨worker.next, worker.stop, inner⟩
                    (steps + effort cost (worker.next + 1, worker.stop)) :=
                .working inRange finishes
              rw [proceeds, Nat.add_right_comm, Nat.add_sub_cancel]
              refine follows.update rfl id ?_
              intro range found
              cases isRange.symm.trans found
              exact ⟨stop_eq, delivered, later⟩
          | deliver delivers =>
              rw [delivers, Nat.add_sub_cancel_left]
              refine follows.update List.length_set ?_ ?_
              · intro range other rest otherFollows
                exact otherFollows.deliver (indexInside.trans_eq follows.length_results.symm)
              · intro range found
                cases isRange.symm.trans found
                refine ⟨stop_eq, ?_, remaining_start fun inside => ?_⟩
                · intro index lower upper
                  rw [List.getElem?_set]
                  by_cases isNext : worker.next = index
                  · rw [← isNext, if_pos rfl, if_pos]
                    rwa [follows.length_results]
                  · rw [if_neg isNext]
                    exact delivered index lower
                      (Nat.lt_of_le_of_ne (Nat.lt_succ_iff.mp upper) (Ne.symm isNext))
                · exact works _ (inside.trans_le stopInside)

/-- At the start, each worker has the steps of its range before it. -/
theorem start_follows
    (works : Works job output cost size)
    (inBounds : ∀ range ∈ ranges, range.2 ≤ size)
    {results : List Output}
    (length_results : results.length = size) :
    Follows job output cost size ranges
      (fun place => ((ranges.map (effort cost)).getD place 0))
      (start job results ranges) := by
  refine ⟨rfl, length_results, List.length_map _, ?_⟩
  intro place range worker isRange isWorker
  rw [start, List.getElem?_map, isRange] at isWorker
  cases isWorker
  rw [List.getD_eq_getElem?_getD, List.getElem?_map, isRange]
  refine ⟨rfl, fun index lower upper => absurd upper (Nat.not_lt.mpr lower), ?_⟩
  apply remaining_start
  intro inRange
  exact works _ (inRange.trans_le (inBounds range (List.mem_of_getElem? isRange)))

/-- A run takes from each worker the steps that the schedule gives it. -/
theorem run_follows
    (works : Works job output cost size)
    (inBounds : ∀ range ∈ ranges, range.2 ≤ size)
    {remaining : ℕ → ℕ}
    {pool : Pool Private Output}
    (follows : Follows job output cost size ranges remaining pool)
    (schedule : List ℕ) :
    Follows job output cost size ranges
      (fun place => remaining place - schedule.count place)
      (Transition.run (step job) pool schedule) := by
  induction schedule generalizing pool remaining with
  | nil =>
      exact follows
  | cons chosen rest inductionHypothesis =>
      have later := inductionHypothesis (step_follows works inBounds follows chosen)
      rw [update_sub_count] at later
      exact later

/-- The pool is finished when no worker has a step left. -/
theorem Follows.finished_iff
    {remaining : ℕ → ℕ}
    {pool : Pool Private Output}
    (follows : Follows job output cost size ranges remaining pool) :
    pool.Finished ↔ ∀ place < ranges.length, remaining place = 0 := by
  constructor
  · rintro ⟨-, allFinished⟩ place inside
    have workerInside : place < pool.workers.length := by
      rwa [follows.length_workers]
    have workerFollows := follows.worker (List.getElem?_eq_getElem inside)
      (List.getElem?_eq_getElem workerInside)
    exact workerFollows.remaining.finished_iff.mp (allFinished _ (List.getElem_mem _))
  · intro noneLeft
    refine ⟨follows.running, ?_⟩
    intro worker member
    obtain ⟨place, workerInside, rfl⟩ := List.getElem_of_mem member
    have inside : place < ranges.length := by
      rwa [← follows.length_workers]
    have workerFollows := follows.worker (List.getElem?_eq_getElem inside)
      (List.getElem?_eq_getElem workerInside)
    exact workerFollows.remaining.finished_iff.mpr (noneLeft place inside)

/-- A finished pool holds the outputs in their order. -/
theorem Follows.results_eq
    {remaining : ℕ → ℕ}
    {pool : Pool Private Output}
    (follows : Follows job output cost size ranges remaining pool)
    (covered : ∀ index < size, ∃ range ∈ ranges, range.1 ≤ index ∧ index < range.2)
    (finished : pool.Finished) :
    pool.results = (List.range size).map output := by
  apply List.ext_getElem?
  intro index
  by_cases inside : index < size
  · obtain ⟨range, member, lower, upper⟩ := covered index inside
    obtain ⟨place, rangeInside, rfl⟩ := List.getElem_of_mem member
    have workerInside : place < pool.workers.length := by
      rwa [follows.length_workers]
    have workerFollows := follows.worker (List.getElem?_eq_getElem rangeInside)
      (List.getElem?_eq_getElem workerInside)
    have atEnd := finished.2 _ (List.getElem_mem workerInside)
    rw [workerFollows.stop_eq] at atEnd
    rw [workerFollows.delivered index lower (upper.trans_le atEnd)]
    simp [inside]
  · rw [List.getElem?_eq_none (follows.length_results.trans_le (Nat.not_lt.mp inside))]
    simp [Nat.not_lt.mp inside]

end Runs

end WorkerPool
