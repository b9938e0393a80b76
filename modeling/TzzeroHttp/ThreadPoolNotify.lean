import TzzeroHttp.Simulation
import TzzeroHttp.ThreadPoolTasks

/-! The condition variable of the thread pool. `submit` leaves the mutex before it calls
`notify_one`, and `stop()` before it calls `notify_all`; between the two calls any other thread
may run. A notification wakes a thread that waits at that moment, or is lost if none does. The
pool with these calls is a refinement of the one whose workers wake at will, and none of its
lost notifications leaves a task behind. -/
namespace TzzeroHttp.ThreadPoolNotify
open ThreadPoolModel Runs

/-- `notifies` counts the calls of `submit` between their unlock and their `notify_one`;
`announcing` is true between the unlock of `stop()` and its `notify_all`. -/
structure NotifiedPool (τ : Type*) where
  pool : ThreadPool τ
  notifies : ℕ := 0
  announcing : Bool := false

/-- `notifyOne` names the worker that the call wakes, if one waits; `wake` is spurious. -/
inductive Label (τ : Type*)
  | submit (task : τ)
  | notifyOne (woken : Option ℕ)
  | check (worker : ℕ)
  | wake (worker : ℕ)
  | finish (worker : ℕ)
  | stop
  | notifyAll
  | join
  | stopReturns

variable {τ : Type*}

def asleep : Worker τ → Bool
  | .waiting => true
  | _ => false

def rouse : Worker τ → Worker τ
  | .waiting => .ready
  | w => w

namespace NotifiedPool

def new (τ : Type*) (numThreads : ℕ) : NotifiedPool τ := { pool := ThreadPool.new τ numThreads }

/-- A step of the pool that concerns the condition variable in no way. -/
def lift (q : NotifiedPool τ) (l : ThreadPoolModel.Label τ) : Option (NotifiedPool τ) :=
  (ThreadPoolModel.step q.pool l).map fun p => { q with pool := p }

end NotifiedPool

def step (q : NotifiedPool τ) : Label τ → Option (NotifiedPool τ)
  | .submit task =>
    some { q with
      pool := q.pool.submit task
      notifies := if q.pool.stopFlag then q.notifies else q.notifies + 1 }
  | .notifyOne none =>
    if 0 < q.notifies ∧ q.pool.workers.all (fun w => !asleep w) then
      some { q with notifies := q.notifies - 1 }
    else none
  | .notifyOne (some i) =>
    if 0 < q.notifies then NotifiedPool.lift { q with notifies := q.notifies - 1 } (.wake i) else none
  | .check i => q.lift (.check i)
  | .wake i => q.lift (.wake i)
  | .finish i => q.lift (.finish i)
  | .stop => NotifiedPool.lift { q with announcing := true } .stop
  | .notifyAll =>
    if q.announcing then
      some { q with
        pool := { q.pool with workers := q.pool.workers.map rouse }, announcing := false }
    else none
  | .join => if q.announcing then none else q.lift .join
  | .stopReturns => if q.announcing then none else q.lift .stopReturns

inductive Move (q : NotifiedPool τ) : Label τ → NotifiedPool τ → Prop
  | submit (task : τ) : Move q (.submit task) { q with
      pool := q.pool.submit task
      notifies := if q.pool.stopFlag then q.notifies else q.notifies + 1 }
  | lost (hpos : 0 < q.notifies) (hawake : ∀ w ∈ q.pool.workers, asleep w = false) :
    Move q (.notifyOne none) { q with notifies := q.notifies - 1 }
  | notifyOne (i : ℕ) (hpos : 0 < q.notifies) (hi : q.pool.workers[i]? = some .waiting) :
    Move q (.notifyOne (some i)) { q with
      pool := { q.pool with workers := q.pool.workers.set i .ready }, notifies := q.notifies - 1 }
  | check (i : ℕ) (hi : q.pool.workers[i]? = some .ready) :
    Move q (.check i) { q with pool := q.pool.check i }
  | wake (i : ℕ) (hi : q.pool.workers[i]? = some .waiting) :
    Move q (.wake i) { q with pool := { q.pool with workers := q.pool.workers.set i .ready } }
  | finish (i : ℕ) (task : τ) (hi : q.pool.workers[i]? = some (.running task)) :
    Move q (.finish i) { q with pool := { q.pool with
      workers := q.pool.workers.set i .ready, finished := q.pool.finished ++ [task] } }
  | stop (hjoining : q.pool.joining = none) :
    Move q .stop { q with
      pool := { q.pool with stopFlag := true, joining := some 0 }, announcing := true }
  | notifyAll (hannouncing : q.announcing = true) :
    Move q .notifyAll { q with
      pool := { q.pool with workers := q.pool.workers.map rouse }, announcing := false }
  | join (k : ℕ) (hquiet : q.announcing = false) (hjoining : q.pool.joining = some k)
      (hk : q.pool.workers[k]? = some .exited) :
    Move q .join { q with pool := { q.pool with joining := some (k + 1) } }
  | stopReturns (hquiet : q.announcing = false)
      (hjoining : q.pool.joining = some q.pool.workers.length) :
    Move q .stopReturns { q with
      pool := { q.pool with joining := none, returns := q.pool.returns + 1 } }

theorem lift_eq_some {q q' : NotifiedPool τ} {l : ThreadPoolModel.Label τ} (h : q.lift l = some q') :
    ∃ p, ThreadPoolModel.Move q.pool l p ∧ q' = { q with pool := p } := by
  obtain ⟨p, hp, rfl⟩ := Option.map_eq_some_iff.mp h
  exact ⟨p, step_move hp, rfl⟩

theorem step_move {q q' : NotifiedPool τ} {l : Label τ} (h : step q l = some q') : Move q l q' := by
  cases l with
  | submit task =>
    obtain rfl := Option.some.inj h
    exact .submit task
  | notifyOne woken =>
    cases woken with
    | none =>
      obtain ⟨⟨hpos, hawake⟩, rfl⟩ := guard_eq_some h
      exact .lost hpos (by simpa using hawake)
    | some i =>
      simp only [step, Option.ite_none_right_eq_some] at h
      obtain ⟨p, hp, rfl⟩ := lift_eq_some h.2
      cases hp with
      | wake _ hi => exact .notifyOne i h.1 hi
  | check i =>
    obtain ⟨p, hp, rfl⟩ := lift_eq_some h
    cases hp with
    | check _ hi => exact .check i hi
  | wake i =>
    obtain ⟨p, hp, rfl⟩ := lift_eq_some h
    cases hp with
    | wake _ hi => exact .wake i hi
  | finish i =>
    obtain ⟨p, hp, rfl⟩ := lift_eq_some h
    cases hp with
    | finish _ task hi => exact .finish i task hi
  | stop =>
    obtain ⟨p, hp, rfl⟩ := lift_eq_some h
    cases hp with
    | stop hjoining => exact .stop hjoining
  | notifyAll =>
    obtain ⟨hannouncing, rfl⟩ := guard_eq_some h
    exact .notifyAll hannouncing
  | join =>
    simp only [step, Option.ite_none_left_eq_some] at h
    obtain ⟨p, hp, rfl⟩ := lift_eq_some h.2
    cases hp with
    | join k hjoining hk => exact .join k (by simpa using h.1) hjoining hk
  | stopReturns =>
    simp only [step, Option.ite_none_left_eq_some] at h
    obtain ⟨p, hp, rfl⟩ := lift_eq_some h.2
    cases hp with
    | stopReturns hjoining => exact .stopReturns (by simpa using h.1) hjoining

/-- The wake-ups that one `notify_all` stands for, from the worker at position `k` on. -/
def wakes : ℕ → List (Worker τ) → List (ThreadPoolModel.Label τ)
  | _, [] => []
  | k, w :: ws => (if asleep w then [.wake k] else []) ++ wakes (k + 1) ws

/-- The steps of the pool without notifications that match a step. -/
def coarse (q : NotifiedPool τ) : Label τ → List (ThreadPoolModel.Label τ)
  | .submit task => [.submit task]
  | .notifyOne none => []
  | .notifyOne (some i) => [.wake i]
  | .check i => [.check i]
  | .wake i => [.wake i]
  | .finish i => [.finish i]
  | .stop => [.stop]
  | .notifyAll => wakes 0 q.pool.workers
  | .join => [.join]
  | .stopReturns => [.stopReturns]

theorem run_wakes {p : ThreadPool τ} (done ws : List (Worker τ)) (h : p.workers = done ++ ws) :
    run ThreadPoolModel.step p (wakes done.length ws) =
      some { p with workers := done ++ ws.map rouse } := by
  induction ws generalizing p done with
  | nil =>
    rw [← show p.workers = done ++ [].map rouse from h]
    rfl
  | cons w ws ih =>
    cases w with
    | waiting =>
      have hget : p.workers[done.length]? = some .waiting := by simp [h]
      have hset : p.workers.set done.length .ready = (done ++ [.ready]) ++ ws := by simp [h]
      have hfirst : ThreadPoolModel.step p (.wake done.length) =
          some { p with workers := p.workers.set done.length .ready } := by
        simp [ThreadPoolModel.step, hget]
      have hrest := ih (done ++ [.ready]) (p := { p with workers := p.workers.set done.length .ready }) hset
      rw [List.length_append, List.length_singleton] at hrest
      refine run_cons.mpr ⟨_, hfirst, hrest.trans ?_⟩
      simp [rouse]
    | _ =>
      have hrest := ih (done ++ [_]) (p := p) (by rw [h, List.append_assoc]; rfl)
      rw [List.length_append, List.length_singleton] at hrest
      exact hrest.trans (by simp [rouse])

theorem run_single {p p' : ThreadPool τ} {l : ThreadPoolModel.Label τ}
    (h : ThreadPoolModel.step p l = some p') : run ThreadPoolModel.step p [l] = some p' :=
  run_cons.mpr ⟨p', h, rfl⟩

theorem step_coarse {q q' : NotifiedPool τ} {l : Label τ} (h : step q l = some q') :
    run ThreadPoolModel.step q.pool (coarse q l) = some q'.pool := by
  cases step_move h with
  | submit task => rfl
  | lost hpos hawake => rfl
  | notifyOne i hpos hi => exact run_single (by simp [ThreadPoolModel.step, hi])
  | check i hi => exact run_single (by simp [ThreadPoolModel.step, hi])
  | wake i hi => exact run_single (by simp [ThreadPoolModel.step, hi])
  | finish i task hi => exact run_single (by simp [ThreadPoolModel.step, hi])
  | stop hjoining => exact run_single (by simp [ThreadPoolModel.step, hjoining])
  | notifyAll hannouncing => exact run_wakes [] q.pool.workers rfl
  | join k hquiet hjoining hk => exact run_single (by simp [ThreadPoolModel.step, hjoining, hk])
  | stopReturns hquiet hjoining => exact run_single (by simp [ThreadPoolModel.step, hjoining])

/-- Every run of the pool with its notifications is a run of the pool without them. -/
theorem run_coarse {q q' : NotifiedPool τ} {labels : List (Label τ)}
    (hrun : run step q labels = some q') :
    run ThreadPoolModel.step q.pool (Simulation.trace step coarse q labels) = some q'.pool := by
  have hstep : ∀ (s : NotifiedPool τ) (t : ThreadPool τ) l s', s.pool = t → step s l = some s' →
      ∃ t', run ThreadPoolModel.step t (coarse s l) = some t' ∧ s'.pool = t' := by
    intro s t l s' hst hl
    exact ⟨s'.pool, hst ▸ step_coarse hl, rfl⟩
  obtain ⟨p, hp, rfl⟩ := Simulation.run_simulates hstep rfl hrun
  exact hp

theorem run_accounted {n : ℕ} {q : NotifiedPool τ} {labels : List (Label τ)}
    (hrun : run step (.new τ n) labels = some q) : ThreadPoolTasks.Accounted n q.pool :=
  run_preserves (fun _ _ _ => ThreadPoolTasks.step_accounted) (ThreadPoolTasks.new_accounted τ n)
    (run_coarse hrun)

end TzzeroHttp.ThreadPoolNotify
