import TzzeroHttp.ThreadPoolNotify

/-! No task is left behind by a lost notification, and `stop()` comes back. While a worker sleeps
there are at least as many ready workers and pending notifications as queued tasks, and after the
stop flag is set a worker sleeps only until the `notify_all` that is still to come. Two measures
bound the steps that are left until everything has run, and until `stop()` has returned. -/
namespace TzzeroHttp.ThreadPoolLiveness
open ThreadPoolModel ThreadPoolNotify Runs

variable {τ : Type*}

def total (f : Worker τ → ℕ) (ws : List (Worker τ)) : ℕ := (ws.map f).sum

theorem total_set {ws : List (Worker τ)} {i : ℕ} {a : Worker τ} (h : ws[i]? = some a)
    (f : Worker τ → ℕ) (b : Worker τ) : total f (ws.set i b) + f a = total f ws + f b := by
  induction ws generalizing i with
  | nil => simp at h
  | cons w ws ih =>
    cases i with
    | zero =>
      obtain rfl : w = a := by simpa using h
      simp only [total, List.set_cons_zero, List.map_cons, List.sum_cons]
      omega
    | succ i =>
      have hrest := ih (by simpa using h)
      simp only [total, List.set_cons_succ, List.map_cons, List.sum_cons] at hrest ⊢
      omega

theorem total_le {f : Worker τ → ℕ} {c : ℕ} (hf : ∀ w, f w ≤ c) (ws : List (Worker τ)) :
    total f ws ≤ c * ws.length := by
  induction ws with
  | nil => simp [total]
  | cons w ws ih =>
    have hw := hf w
    simp only [total, List.map_cons, List.sum_cons, List.length_cons, Nat.mul_succ] at ih ⊢
    omega

theorem total_eq_zero {f : Worker τ → ℕ} {ws : List (Worker τ)} (h : ∀ w ∈ ws, f w = 0) :
    total f ws = 0 := by
  rw [total, List.sum_eq_zero]
  intro x hx
  obtain ⟨w, hw, rfl⟩ := List.mem_map.mp hx
  exact h w hw

def isReady : Worker τ → ℕ
  | .ready => 1
  | _ => 0

theorem waiting_of_set {ws : List (Worker τ)} {i : ℕ} {b : Worker τ} (hb : b ≠ .waiting)
    (h : .waiting ∈ ws.set i b) : .waiting ∈ ws :=
  (List.mem_or_eq_of_mem_set h).resolve_right fun heq => hb heq.symm

theorem not_waiting_of_rouse (ws : List (Worker τ)) : .waiting ∉ ws.map rouse := by
  intro h
  obtain ⟨w, -, hw⟩ := List.mem_map.mp h
  cases w <;> cases hw

/-- Every queued task is spoken for as long as somebody sleeps. -/
structure Covered (q : NotifiedPool τ) : Prop where
  covered : .waiting ∈ q.pool.workers → q.pool.tasks.length ≤ q.notifies + total isReady q.pool.workers
  announced : q.pool.stopFlag = true → .waiting ∈ q.pool.workers → q.announcing = true
  joining : ∀ k ∈ q.pool.joining, q.pool.stopFlag = true

theorem new_covered (τ : Type*) (n : ℕ) : Covered (.new τ n) where
  covered h := absurd (List.eq_of_mem_replicate h) (by simp)
  announced h := by simp [NotifiedPool.new, ThreadPool.new] at h
  joining k hk := by simp [NotifiedPool.new, ThreadPool.new] at hk

variable {q q' : NotifiedPool τ}

theorem submit_covered (h : Covered q) (task : τ) :
    Covered { q with
      pool := q.pool.submit task
      notifies := if q.pool.stopFlag then q.notifies else q.notifies + 1 } := by
  unfold ThreadPool.submit
  split_ifs with hstop
  · exact ⟨h.covered, h.announced, h.joining⟩
  · refine ⟨fun hwaiting => ?_, fun hflag => absurd hflag hstop, h.joining⟩
    have hold := h.covered hwaiting
    simp only [List.length_append, List.length_singleton]
    omega

theorem check_covered (h : Covered q) {i : ℕ} (hi : q.pool.workers[i]? = some .ready) :
    Covered { q with pool := q.pool.check i } := by
  unfold ThreadPool.check
  split
  · next hnil =>
    split_ifs with hstop
    · exact ⟨fun _ => by simp [hnil], fun hflag hmem => h.announced hflag (waiting_of_set (by simp) hmem),
        h.joining⟩
    · exact ⟨fun _ => by simp [hnil], fun hflag => absurd hflag hstop, h.joining⟩
  · next task tasks htasks =>
    refine ⟨fun hmem => ?_, fun hflag hmem => h.announced hflag (waiting_of_set (by simp) hmem),
      h.joining⟩
    have hold := h.covered (waiting_of_set (by simp) hmem)
    have hset := total_set hi isReady (.running task)
    rw [htasks, List.length_cons] at hold
    simp only [isReady] at hset
    show tasks.length ≤ q.notifies + total isReady (q.pool.workers.set i (.running task))
    omega

/-- A worker that becomes ready covers a task more, and so may use up a notification. -/
theorem ready_covered (h : Covered q) {i : ℕ} {a : Worker τ} (hi : q.pool.workers[i]? = some a)
    (ha : isReady a = 0) {notifies : ℕ} (hnotifies : q.notifies ≤ notifies + 1) (finished : List τ) :
    Covered { q with
      pool := { q.pool with workers := q.pool.workers.set i .ready, finished := finished }
      notifies := notifies } := by
  have hold : ∀ hmem : .waiting ∈ q.pool.workers.set i .ready, .waiting ∈ q.pool.workers :=
    waiting_of_set (by simp)
  refine ⟨fun hmem => ?_, fun hflag hmem => h.announced hflag (hold hmem), h.joining⟩
  have hcovered := h.covered (hold hmem)
  have hset := total_set hi isReady .ready
  rw [ha, show isReady (.ready : Worker τ) = 1 from rfl] at hset
  show q.pool.tasks.length ≤ notifies + total isReady (q.pool.workers.set i .ready)
  omega

theorem step_covered {l : ThreadPoolNotify.Label τ} (h : Covered q)
    (hstep : ThreadPoolNotify.step q l = some q') : Covered q' := by
  cases ThreadPoolNotify.step_move hstep with
  | submit task => exact submit_covered h task
  | lost hpos hawake =>
    have hnone : .waiting ∉ q.pool.workers := fun hmem => by simpa [asleep] using hawake _ hmem
    exact ⟨fun hmem => absurd hmem hnone, fun _ hmem => absurd hmem hnone, h.joining⟩
  | notifyOne i hpos hi => exact ready_covered h hi rfl (by omega) _
  | check i hi => exact check_covered h hi
  | wake i hi => exact ready_covered h hi rfl (by omega) _
  | finish i task hi => exact ready_covered h hi rfl (by omega) _
  | stop hjoining => exact ⟨h.covered, fun _ _ => rfl, fun _ _ => rfl⟩
  | notifyAll hannouncing =>
    have hnone := not_waiting_of_rouse q.pool.workers
    exact ⟨fun hmem => absurd hmem hnone, fun _ hmem => absurd hmem hnone, h.joining⟩
  | join k hquiet hjoining hk => exact ⟨h.covered, h.announced, fun _ _ => h.joining k hjoining⟩
  | stopReturns hquiet hjoining => exact ⟨h.covered, h.announced, by simp⟩

def works : ThreadPoolNotify.Label τ → Bool
  | .notifyOne _ | .check _ | .finish _ => true
  | _ => false

def workOf : Worker τ → ℕ
  | .waiting | .exited => 0
  | .ready => 1
  | .running _ => 2

/-- A bound of the work that is left: a queued task is taken and returns, a notification is made
and its worker looks at the queue. -/
def workLeft (q : NotifiedPool τ) : ℕ :=
  2 * q.pool.tasks.length + total workOf q.pool.workers + 2 * q.notifies

theorem check_workLeft {i : ℕ} (hi : q.pool.workers[i]? = some .ready) :
    workLeft { q with pool := q.pool.check i } + 1 ≤ workLeft q := by
  have hset := total_set hi workOf
  unfold ThreadPool.check workLeft
  split
  · next hnil =>
    have hexited := hset .exited
    have hwaiting := hset .waiting
    simp only [show workOf (.ready : Worker τ) = 1 from rfl, show workOf (.exited : Worker τ) = 0 from rfl,
      show workOf (.waiting : Worker τ) = 0 from rfl] at hexited hwaiting
    split_ifs <;> simp only [hnil, List.length_nil] <;> omega
  · next task tasks htasks =>
    have hrunning := hset (.running task)
    rw [show workOf (.ready : Worker τ) = 1 from rfl, show workOf (.running task) = 2 from rfl] at hrunning
    rw [htasks, List.length_cons]
    simp only
    omega

theorem step_workLeft {l : ThreadPoolNotify.Label τ} (hl : works l = true)
    (hstep : ThreadPoolNotify.step q l = some q') : workLeft q' + 1 ≤ workLeft q := by
  cases ThreadPoolNotify.step_move hstep with
  | lost hpos hawake =>
    simp only [workLeft]
    omega
  | notifyOne i hpos hi =>
    have hset := total_set hi workOf .ready
    rw [show workOf (.ready : Worker τ) = 1 from rfl, show workOf (.waiting : Worker τ) = 0 from rfl] at hset
    simp only [workLeft]
    omega
  | check i hi => exact check_workLeft hi
  | finish i task hi =>
    have hset := total_set hi workOf .ready
    rw [show workOf (.ready : Worker τ) = 1 from rfl, show workOf (.running task) = 2 from rfl] at hset
    simp only [workLeft]
    omega
  | _ => cases hl

def Idle (q : NotifiedPool τ) : Prop := ∀ l, works l = true → ThreadPoolNotify.step q l = none

theorem Idle.workers (h : Idle q) : ∀ w ∈ q.pool.workers, w = .waiting ∨ w = .exited := by
  intro w hw
  obtain ⟨i, hi⟩ := List.getElem?_of_mem hw
  cases w with
  | ready =>
    have hcheck := h (.check i) rfl
    simp [ThreadPoolNotify.step, NotifiedPool.lift, ThreadPoolModel.step, hi] at hcheck
  | running task =>
    have hfinish := h (.finish i) rfl
    simp [ThreadPoolNotify.step, NotifiedPool.lift, ThreadPoolModel.step, hi] at hfinish
  | waiting => exact .inl rfl
  | exited => exact .inr rfl

theorem Idle.notifies (h : Idle q) : q.notifies = 0 := by
  by_contra hne
  have hpos : 0 < q.notifies := Nat.pos_of_ne_zero hne
  by_cases hwaiting : .waiting ∈ q.pool.workers
  · obtain ⟨i, hi⟩ := List.getElem?_of_mem hwaiting
    have hwoken := h (.notifyOne (some i)) rfl
    simp [ThreadPoolNotify.step, NotifiedPool.lift, ThreadPoolModel.step, hi, hpos] at hwoken
  · have hlost := h (.notifyOne none) rfl
    have hawake : ∀ w ∈ q.pool.workers, asleep w = false := by
      intro w hw
      cases w with
      | waiting => exact absurd hw hwaiting
      | _ => rfl
    simp [ThreadPoolNotify.step, hpos, List.all_eq_true] at hlost
    obtain ⟨w, hw, hasleep⟩ := hlost
    exact absurd (hawake w hw) (by simp [hasleep])

theorem Idle.tasks {n : ℕ} (h : Idle q) (hcovered : Covered q)
    (haccounted : ThreadPoolTasks.Accounted n q.pool) (hn : 0 < n) : q.pool.tasks = [] := by
  by_cases hwaiting : .waiting ∈ q.pool.workers
  · have hlength := hcovered.covered hwaiting
    have hready : total isReady q.pool.workers = 0 := by
      apply total_eq_zero
      intro w hw
      rcases h.workers w hw with rfl | rfl <;> rfl
    exact List.length_eq_zero_iff.mp (by rw [h.notifies, hready] at hlength; omega)
  · obtain ⟨w, hw⟩ := List.exists_mem_of_length_pos (haccounted.size ▸ hn)
    rcases h.workers w hw with rfl | rfl
    · exact absurd hw hwaiting
    · exact (haccounted.drained hw).2

theorem Idle.finished {n : ℕ} (h : Idle q) (hcovered : Covered q)
    (haccounted : ThreadPoolTasks.Accounted n q.pool) (hn : 0 < n) :
    q.pool.finished.Perm q.pool.enqueued := by
  have hnone : ThreadPoolTasks.running q.pool.workers = [] := by
    simp only [ThreadPoolTasks.running, List.filterMap_eq_nil_iff]
    intro w hw
    rcases h.workers w hw with rfl | rfl <;> rfl
  have horder := haccounted.order
  have hrun := haccounted.run
  rw [h.tasks hcovered haccounted hn, List.append_nil] at horder
  rwa [hnone, List.append_nil, horder] at hrun

theorem run_covered {n : ℕ} {labels : List (ThreadPoolNotify.Label τ)}
    (hrun : run ThreadPoolNotify.step (.new τ n) labels = some q) : Covered q :=
  run_preserves (fun _ _ _ => step_covered) (new_covered τ n) hrun

/-- No notification that is lost leaves a task behind: from every reachable state the pool comes
to rest within a bounded number of steps of its own, and when it rests every task that `submit`
ever accepted has been run. -/
theorem rests_when_done (n : ℕ) (hn : 0 < n) (labels : List (ThreadPoolNotify.Label τ))
    (q : NotifiedPool τ) (hrun : run ThreadPoolNotify.step (.new τ n) labels = some q) :
    (.waiting ∈ q.pool.workers →
      q.pool.tasks.length ≤ q.notifies + total isReady q.pool.workers) ∧
    (∀ more q', (∀ l ∈ more, works l = true) → run ThreadPoolNotify.step q more = some q' →
      more.length ≤ 2 * (q.pool.tasks.length + q.notifies + n)) ∧
    (Idle q → q.pool.tasks = [] ∧ q.pool.finished.Perm q.pool.enqueued) := by
  have hcovered := run_covered hrun
  have haccounted := run_accounted hrun
  refine ⟨hcovered.covered, fun more q' hworks hmore => ?_,
    fun hidle => ⟨hidle.tasks hcovered haccounted hn, hidle.finished hcovered haccounted hn⟩⟩
  have hstep : ∀ (s : NotifiedPool τ) l s', True → works l = true →
      ThreadPoolNotify.step s l = some s' → True ∧ workLeft s' + 1 ≤ workLeft s :=
    fun s l s' _ hl hs => ⟨trivial, step_workLeft hl hs⟩
  have hsteps := (run_decreases hstep trivial (guarded_of_forall hworks) hmore).2
  have hworkers : total workOf q.pool.workers ≤ 2 * q.pool.workers.length := by
    apply total_le
    intro w
    cases w <;> simp [workOf]
  have hlength : (more.map fun _ => 1).sum = more.length := by simp
  have hsize := haccounted.size
  simp only [workLeft] at hsteps
  omega

/-- Both notifications find the only worker busy; the queue still is covered by the ready worker. -/
theorem rests_when_done_unheard :
    let labels : List (ThreadPoolNotify.Label ℕ) := [.submit 1, .submit 2, .notifyOne none, .check 0,
      .notifyOne none, .finish 0]
    ∃ q, run ThreadPoolNotify.step (.new ℕ 1) labels = some q ∧ q.pool.tasks = [2] ∧
      ∀ more q', (∀ l ∈ more, works l = true) → run ThreadPoolNotify.step q more = some q' →
        more.length ≤ 4 := by
  intro labels
  have hend : (run ThreadPoolNotify.step (.new ℕ 1) labels).map (fun q => (q.pool.tasks, q.notifies)) =
      some ([2], 0) := by decide
  obtain ⟨q, hq, hresult⟩ := Option.map_eq_some_iff.mp hend
  obtain ⟨htasks, hnotifies⟩ := Prod.mk.inj hresult
  refine ⟨q, hq, htasks, fun more q' hworks hmore => ?_⟩
  have hbound := (rests_when_done 1 (by decide) labels q hq).2.1 more q' hworks hmore
  rw [htasks, hnotifies] at hbound
  exact hbound

def isSubmit : ThreadPoolNotify.Label τ → Bool
  | .submit _ => true
  | _ => false

def stopOf : Worker τ → ℕ
  | .exited => 0
  | .ready => 1
  | .waiting | .running _ => 2

def joinsLeft (p : ThreadPool τ) : ℕ := p.joining.elim 0 fun k => p.workers.length + 1 - k

/-- A bound of the steps until `stop()` has returned: no task is accepted any more, so a worker
that takes none exits, and a worker that sleeps does not sleep again. -/
def stopLeft (q : NotifiedPool τ) : ℕ :=
  2 * q.pool.tasks.length + total stopOf q.pool.workers + q.notifies + q.announcing.toNat +
    joinsLeft q.pool

structure Stopping (q : NotifiedPool τ) : Prop where
  flag : q.pool.stopFlag = true
  joining : q.pool.joining.isSome = true

theorem check_stopLeft {i : ℕ} (h : Stopping q) (hi : q.pool.workers[i]? = some .ready) :
    stopLeft { q with pool := q.pool.check i } + 1 ≤ stopLeft q := by
  have hset := total_set hi stopOf
  unfold ThreadPool.check stopLeft
  split
  · next hnil =>
    have hexited := hset .exited
    rw [show stopOf (.ready : Worker τ) = 1 from rfl, show stopOf (.exited : Worker τ) = 0 from rfl]
      at hexited
    simp only [h.flag, if_true, joinsLeft, List.length_set]
    omega
  · next task tasks htasks =>
    have hrunning := hset (.running task)
    rw [show stopOf (.ready : Worker τ) = 1 from rfl, show stopOf (.running task) = 2 from rfl]
      at hrunning
    simp only [htasks, List.length_cons, joinsLeft, List.length_set]
    omega

theorem ready_stopLeft {i : ℕ} {a : Worker τ} (hi : q.pool.workers[i]? = some a) (ha : stopOf a = 2)
    {notifies : ℕ} (hnotifies : notifies ≤ q.notifies) (finished : List τ) :
    stopLeft { q with
      pool := { q.pool with workers := q.pool.workers.set i .ready, finished := finished }
      notifies := notifies } + 1 ≤ stopLeft q := by
  have hset := total_set hi stopOf .ready
  rw [ha, show stopOf (.ready : Worker τ) = 1 from rfl] at hset
  simp only [stopLeft, joinsLeft, List.length_set]
  omega

theorem total_rouse (ws : List (Worker τ)) : total stopOf (ws.map rouse) ≤ total stopOf ws := by
  induction ws with
  | nil => exact le_rfl
  | cons w ws ih =>
    have hw : stopOf (rouse w) ≤ stopOf w := by cases w <;> simp [stopOf, rouse]
    simp only [total, List.map_cons, List.sum_cons] at ih ⊢
    omega

theorem step_stopLeft {l : ThreadPoolNotify.Label τ} (h : Stopping q) (hl : l ≠ .stopReturns)
    (hstep : ThreadPoolNotify.step q l = some q') :
    Stopping q' ∧ stopLeft q' + (!isSubmit l).toNat ≤ stopLeft q := by
  cases ThreadPoolNotify.step_move hstep with
  | submit task =>
    have hsubmit : q.pool.submit task = { q.pool with rejected := q.pool.rejected ++ [task] } := by
      simp [ThreadPool.submit, h.flag]
    rw [hsubmit, if_pos h.flag]
    exact ⟨⟨h.flag, h.joining⟩, le_rfl⟩
  | lost hpos hawake =>
    refine ⟨⟨h.flag, h.joining⟩, ?_⟩
    simp only [stopLeft, isSubmit, Bool.not_false, Bool.toNat_true]
    omega
  | notifyOne i hpos hi => exact ⟨⟨h.flag, h.joining⟩, ready_stopLeft hi rfl (by omega) _⟩
  | check i hi =>
    refine ⟨⟨?_, ?_⟩, check_stopLeft h hi⟩
    · unfold ThreadPool.check
      split <;> simp [h.flag]
    · unfold ThreadPool.check
      split <;> simp [h.flag, h.joining]
  | wake i hi => exact ⟨⟨h.flag, h.joining⟩, ready_stopLeft hi rfl le_rfl _⟩
  | finish i task hi => exact ⟨⟨h.flag, h.joining⟩, ready_stopLeft hi rfl le_rfl _⟩
  | stop hjoining =>
    have hsome := h.joining
    rw [hjoining] at hsome
    cases hsome
  | notifyAll hannouncing =>
    refine ⟨⟨h.flag, h.joining⟩, ?_⟩
    have hrouse := total_rouse q.pool.workers
    simp only [stopLeft, joinsLeft, List.length_map, hannouncing, isSubmit, Bool.not_false,
      Bool.toNat_true, Bool.toNat_false]
    omega
  | join k hquiet hjoining hk =>
    refine ⟨⟨h.flag, rfl⟩, ?_⟩
    have hlt : k < q.pool.workers.length := (List.getElem?_eq_some_iff.mp hk).1
    simp only [stopLeft, joinsLeft, hjoining, Option.elim_some, isSubmit, Bool.not_false,
      Bool.toNat_true]
    omega
  | stopReturns hquiet hjoining => exact absurd rfl hl

/-- `stop()` is never stuck: it can go on, or a worker can. -/
theorem Stopping.enabled {n : ℕ} (h : Stopping q) (hcovered : Covered q)
    (haccounted : ThreadPoolTasks.Accounted n q.pool) :
    ∃ l, isSubmit l = false ∧ (ThreadPoolNotify.step q l).isSome = true := by
  obtain ⟨k, hk⟩ := Option.isSome_iff_exists.mp h.joining
  cases hannouncing : q.announcing with
  | true => exact ⟨.notifyAll, rfl, by simp [ThreadPoolNotify.step, hannouncing]⟩
  | false =>
    have hle : k ≤ q.pool.workers.length := by
      by_contra hlt
      have hlast := (haccounted.joined k hk).2 q.pool.workers.length (by omega)
      simp at hlast
    rcases Nat.lt_or_eq_of_le hle with hlt | rfl
    · -- the thread that `stop()` joins next has exited, or has a step left
      have hget : q.pool.workers[k]? = some q.pool.workers[k] := by simp [hlt]
      cases hw : q.pool.workers[k] with
      | ready =>
        rw [hw] at hget
        exact ⟨.check k, rfl, by
          simp [ThreadPoolNotify.step, NotifiedPool.lift, ThreadPoolModel.step, hget]⟩
      | running task =>
        rw [hw] at hget
        exact ⟨.finish k, rfl, by
          simp [ThreadPoolNotify.step, NotifiedPool.lift, ThreadPoolModel.step, hget]⟩
      | exited =>
        rw [hw] at hget
        exact ⟨.join, rfl, by
          simp [ThreadPoolNotify.step, NotifiedPool.lift, ThreadPoolModel.step, hget, hk, hannouncing]⟩
      | waiting =>
        have hmem : .waiting ∈ q.pool.workers := hw ▸ List.getElem_mem hlt
        have htrue := hcovered.announced h.flag hmem
        rw [hannouncing] at htrue
        cases htrue
    · exact ⟨.stopReturns, rfl, by
        simp [ThreadPoolNotify.step, NotifiedPool.lift, ThreadPoolModel.step, hk, hannouncing]⟩

theorem sum_toNat (p : ThreadPoolNotify.Label τ → Bool) (ls : List (ThreadPoolNotify.Label τ)) :
    (ls.map fun l => (p l).toNat).sum = ls.countP p := by
  induction ls with
  | nil => rfl
  | cons l ls ih =>
    rw [List.map_cons, List.sum_cons, List.countP_cons, ih, add_comm]
    cases p l <;> rfl

/-- `stop()` comes back: while it has not returned, some step other than a call of `submit` is
always possible, and there is a bound on how many of these steps can be made; when it returns,
every task that was ever accepted has been run. -/
theorem stop_returns (n : ℕ) (labels : List (ThreadPoolNotify.Label τ)) (q : NotifiedPool τ)
    (hrun : run ThreadPoolNotify.step (.new τ n) labels = some q)
    (hstop : q.pool.joining.isSome = true) :
    (∀ more q', run ThreadPoolNotify.step q more = some q' → .stopReturns ∉ more →
      more.countP (fun l => !isSubmit l) ≤ 2 * q.pool.tasks.length + q.notifies + 3 * n + 2 ∧
      ∃ l, isSubmit l = false ∧ (ThreadPoolNotify.step q' l).isSome = true) ∧
    (0 < n → ∀ more q', run ThreadPoolNotify.step q (more ++ [.stopReturns]) = some q' →
      q'.pool.finished.Perm q'.pool.enqueued) := by
  have hcovered := run_covered hrun
  have haccounted := run_accounted hrun
  obtain ⟨k, hk⟩ := Option.isSome_iff_exists.mp hstop
  have hstopping : Stopping q := ⟨hcovered.joining k hk, hstop⟩
  constructor
  · intro more q' hmore hnot
    have hok : ∀ l ∈ more, l ≠ .stopReturns := fun l hl heq => hnot (heq ▸ hl)
    have hstep : ∀ (s : NotifiedPool τ) l s', Stopping s → l ≠ .stopReturns →
        ThreadPoolNotify.step s l = some s' →
          Stopping s' ∧ stopLeft s' + (!isSubmit l).toNat ≤ stopLeft s :=
      fun s l s' hs hl hmove => step_stopLeft hs hl hmove
    obtain ⟨hend, hsteps⟩ := run_decreases hstep hstopping (guarded_of_forall hok) hmore
    have hworkers : total stopOf q.pool.workers ≤ 2 * q.pool.workers.length := by
      apply total_le
      intro w
      cases w <;> simp [stopOf]
    have hjoins : joinsLeft q.pool ≤ q.pool.workers.length + 1 := by
      rw [joinsLeft, hk]
      exact Nat.sub_le _ _
    have hannouncing : q.announcing.toNat ≤ 1 := Bool.toNat_le q.announcing
    have hcount := sum_toNat (fun l => !isSubmit l) more
    have hsize := haccounted.size
    have hwhole := run_append.mpr ⟨q, hrun, hmore⟩
    refine ⟨?_, hend.enabled (run_covered hwhole) (run_accounted hwhole)⟩
    rw [← hcount]
    simp only [stopLeft] at hsteps
    omega
  · intro hn more q' hmore
    obtain ⟨q₁, hfirst, hlast⟩ := run_append.mp hmore
    obtain ⟨q₂, hstep, hend⟩ := run_cons.mp hlast
    obtain rfl := Option.some.inj hend
    have hwhole := run_accounted (run_append.mpr ⟨q, hrun, hmore⟩)
    refine hwhole.all_run hn (hwhole.returned ?_)
    cases ThreadPoolNotify.step_move hstep with
    | stopReturns hquiet hjoining => exact Nat.succ_pos _

/-- A worker that sleeps when `stop()` stores its flag, and a task that is still queued. -/
theorem stop_returns_sleeping :
    let labels : List (ThreadPoolNotify.Label ℕ) := [.check 0, .submit 1, .stop, .submit 2]
    ∃ q, run ThreadPoolNotify.step (.new ℕ 1) labels = some q ∧ q.pool.rejected = [2] ∧
      ∀ more q', run ThreadPoolNotify.step q (more ++ [.stopReturns]) = some q' →
        q'.pool.finished.Perm q'.pool.enqueued := by
  intro labels
  have hend : (run ThreadPoolNotify.step (.new ℕ 1) labels).map
      (fun q => (q.pool.rejected, q.pool.joining)) = some ([2], some 0) := by decide
  obtain ⟨q, hq, hresult⟩ := Option.map_eq_some_iff.mp hend
  obtain ⟨hrejected, hjoining⟩ := Prod.mk.inj hresult
  exact ⟨q, hq, hrejected, (stop_returns 1 labels q hq (by simp [hjoining])).2 (by decide)⟩

end TzzeroHttp.ThreadPoolLiveness
