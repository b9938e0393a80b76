import TzzeroHttp.Runs

/-! The thread pool: a task queue under one mutex, workers that take from it, and `stop()`. What
happens under the mutex is one step. A worker that waits on the condition variable may be woken
at any time, by a notification or by none. A task is a `packaged_task`, which keeps what it
throws in its future, so every task that is run returns. -/
namespace TzzeroHttp.ThreadPoolModel

/-- Where a worker is: before it holds the mutex, in `condition_.wait`, in `task()`, or returned. -/
inductive Worker (τ : Type*)
  | ready
  | waiting
  | running (task : τ)
  | exited
  deriving DecidableEq

/-- `enqueued`, `rejected`, `taken` and `finished` record the tasks that `submit` put into the
queue, those it threw for, those that left the queue and those whose call has returned. `joining`
is the position of `stop()` in its loop over the threads, `returns` how often it has returned. -/
structure ThreadPool (τ : Type*) where
  workers : List (Worker τ)
  tasks : List τ := []
  stopFlag : Bool := false
  joining : Option ℕ := none
  returns : ℕ := 0
  enqueued : List τ := []
  rejected : List τ := []
  taken : List τ := []
  finished : List τ := []

/-- `submit` is called by any thread, also by a task; `check` is what a worker does while it holds
the mutex; `join` is one turn of the loop of `stop()`. -/
inductive Label (τ : Type*)
  | submit (task : τ)
  | check (worker : ℕ)
  | wake (worker : ℕ)
  | finish (worker : ℕ)
  | stop
  | join
  | stopReturns

variable {τ : Type*}

namespace ThreadPool

def new (τ : Type*) (numThreads : ℕ) : ThreadPool τ := { workers := List.replicate numThreads .ready }

def submit (p : ThreadPool τ) (task : τ) : ThreadPool τ :=
  if p.stopFlag then { p with rejected := p.rejected ++ [task] }
  else { p with tasks := p.tasks ++ [task], enqueued := p.enqueued ++ [task] }

/-- The wait predicate, the exit test, and the front task. -/
def check (p : ThreadPool τ) (i : ℕ) : ThreadPool τ :=
  match p.tasks with
  | [] =>
    if p.stopFlag then { p with workers := p.workers.set i .exited }
    else { p with workers := p.workers.set i .waiting }
  | task :: tasks =>
    { p with
      workers := p.workers.set i (.running task), tasks := tasks, taken := p.taken ++ [task] }

end ThreadPool

/-- A thread that is not joinable any more has been joined, so it has exited. -/
def step (p : ThreadPool τ) : Label τ → Option (ThreadPool τ)
  | .submit task => some (p.submit task)
  | .check i =>
    match p.workers[i]? with
    | some .ready => some (p.check i)
    | _ => none
  | .wake i =>
    match p.workers[i]? with
    | some .waiting => some { p with workers := p.workers.set i .ready }
    | _ => none
  | .finish i =>
    match p.workers[i]? with
    | some (.running task) =>
      some { p with workers := p.workers.set i .ready, finished := p.finished ++ [task] }
    | _ => none
  | .stop => if p.joining = none then some { p with stopFlag := true, joining := some 0 } else none
  | .join =>
    match p.joining with
    | none => none
    | some k =>
      match p.workers[k]? with
      | some .exited => some { p with joining := some (k + 1) }
      | _ => none
  | .stopReturns =>
    if p.joining = some p.workers.length then
      some { p with joining := none, returns := p.returns + 1 }
    else none

inductive Move (p : ThreadPool τ) : Label τ → ThreadPool τ → Prop
  | submit (task : τ) : Move p (.submit task) (p.submit task)
  | check (i : ℕ) (hi : p.workers[i]? = some .ready) : Move p (.check i) (p.check i)
  | wake (i : ℕ) (hi : p.workers[i]? = some .waiting) :
    Move p (.wake i) { p with workers := p.workers.set i .ready }
  | finish (i : ℕ) (task : τ) (hi : p.workers[i]? = some (.running task)) :
    Move p (.finish i) { p with workers := p.workers.set i .ready, finished := p.finished ++ [task] }
  | stop (hjoining : p.joining = none) :
    Move p .stop { p with stopFlag := true, joining := some 0 }
  | join (k : ℕ) (hjoining : p.joining = some k) (hk : p.workers[k]? = some .exited) :
    Move p .join { p with joining := some (k + 1) }
  | stopReturns (hjoining : p.joining = some p.workers.length) :
    Move p .stopReturns { p with joining := none, returns := p.returns + 1 }

theorem step_move {p p' : ThreadPool τ} {l : Label τ} (h : step p l = some p') : Move p l p' := by
  cases l with
  | submit task =>
    obtain rfl := Option.some.inj h
    exact .submit task
  | check i =>
    simp only [step] at h
    split at h
    · next hi =>
      obtain rfl := Option.some.inj h
      exact .check i hi
    · cases h
  | wake i =>
    simp only [step] at h
    split at h
    · next hi =>
      obtain rfl := Option.some.inj h
      exact .wake i hi
    · cases h
  | finish i =>
    simp only [step] at h
    split at h
    · next task hi =>
      obtain rfl := Option.some.inj h
      exact .finish i task hi
    · cases h
  | stop =>
    obtain ⟨hjoining, rfl⟩ := Runs.guard_eq_some h
    exact .stop hjoining
  | join =>
    simp only [step] at h
    split at h
    · cases h
    · next k hk =>
      split at h
      · next hexited =>
        obtain rfl := Option.some.inj h
        exact .join k hk hexited
      · cases h
  | stopReturns =>
    obtain ⟨hjoining, rfl⟩ := Runs.guard_eq_some h
    exact .stopReturns hjoining

end TzzeroHttp.ThreadPoolModel
