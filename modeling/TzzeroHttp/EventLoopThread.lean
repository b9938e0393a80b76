import TzzeroHttp.EventLoopModel

/-! A worker thread with its own event loop, and the owner that starts it and asks it to quit.
`start_loop()` returns as soon as `loop_` is published, which is before the worker has entered
`loop()`, and `loop()` begins with `quit_ = false`: a `quit()` that falls between the two is
overwritten. -/
namespace TzzeroHttp.EventLoopThread
open EventLoopModel Runs

/-- Where `thread_func` is: `constructed` is while the init callback runs. -/
inductive WorkerPoint
  | notStarted | spawned | constructed | published | looping | returned | cleared
  deriving DecidableEq, Repr

inductive OwnerPoint
  | idle | waiting | started
  deriving DecidableEq, Repr

/-- `loopSet` says that `loop_` is not null. -/
structure LoopThread (F : Type*) where
  worker : WorkerPoint := .notStarted
  owner : OwnerPoint := .idle
  loopSet : Bool := false
  loop : EventLoop F := {}

inductive Label (F : Type*)
  | startLoop | construct | publish | startReturns
  | loop (move : Move)
  | clear
  | call (thread : ThreadId) (call : Call F)
  | ownerQuit

variable {F : Type*}

/-- Who may call into the loop: its own thread from the init callback or from inside `loop()`,
another one with the pointer that `start_loop()` returned. -/
def LoopThread.Callable (s : LoopThread F) (loopThread t : ThreadId) : Prop :=
  if t = loopThread then s.worker = .constructed ∨ s.worker = .looping
  else s.owner = .started ∧ s.loopSet = true

instance (s : LoopThread F) (loopThread t : ThreadId) : Decidable (s.Callable loopThread t) :=
  inferInstanceAs (Decidable (if t = loopThread then _ else _))

/-- One step. `ownerQuit` is the `quit()` of the owner, which has returned from `start_loop()`
and finds `loop_` set, as `~EventLoopThread` does. -/
def step (loopThread : ThreadId) (s : LoopThread F) : Label F → Option (LoopThread F)
  | .startLoop =>
    if s.owner = .idle then some { s with owner := .waiting, worker := .spawned } else none
  | .construct => if s.worker = .spawned then some { s with worker := .constructed } else none
  | .publish =>
    if s.worker = .constructed ∧ ¬ s.loop.Busy loopThread then
      some { s with worker := .published, loopSet := true }
    else none
  | .startReturns =>
    if s.owner = .waiting ∧ s.loopSet = true then some { s with owner := .started } else none
  | .loop m =>
    if (s.worker = .published ∧ m = .enter) ∨ (s.worker = .looping ∧ m ≠ .enter) then
      (EventLoopModel.step loopThread s.loop (.loop m)).map fun l =>
        { s with loop := l, worker := if m = .leave then .returned else .looping }
    else none
  | .clear => if s.worker = .returned then some { s with worker := .cleared, loopSet := false } else none
  | .call t c =>
    if s.Callable loopThread t then
      (EventLoopModel.step loopThread s.loop (.call t c)).map fun l => { s with loop := l }
    else none
  | .ownerQuit =>
    if s.owner = .started ∧ s.loopSet = true then some { s with loop := s.loop.requestQuit } else none

/-- What the owner may expect of every continuation of its `quit()`: `quit_` stays true until
`loop()` has returned, and after the next test of `quit_` no poll can start. -/
def QuitKept (loopThread : ThreadId) (s : LoopThread F) : Prop :=
  ∀ labels s', run (step loopThread) s labels = some s' →
    (s'.worker ≠ .returned → s'.worker ≠ .cleared → s'.loop.quit = true) ∧
      (.loop .testQuit ∈ labels → step loopThread s' (.loop .startPoll) = none)

def Begun (s : LoopThread F) : Prop := s.worker ≠ .published ∧ s.loop.point ≠ .entered

variable {loopThread : ThreadId} {s s' : LoopThread F}

theorem step_loop {m : Move} (h : step loopThread s (.loop m) = some s') :
    ((s.worker = .published ∧ m = .enter) ∨ (s.worker = .looping ∧ m ≠ .enter)) ∧
      ¬ s.loop.Busy loopThread ∧ ∃ l, Moves s.loop m l ∧
        s' = { s with loop := l, worker := if m = .leave then .returned else .looping } := by
  obtain ⟨hguard, h⟩ := Option.ite_none_right_eq_some.mp h
  obtain ⟨l, hl, rfl⟩ := Option.map_eq_some_iff.mp h
  cases step_steps hl with
  | loop m l hidle hmove => exact ⟨hguard, hidle, l, hmove, rfl⟩

theorem step_call {t : ThreadId} {c : Call F} (h : step loopThread s (.call t c) = some s') :
    s.Callable loopThread t ∧ ∃ l, Steps loopThread s.loop (.call t c) l ∧ s' = { s with loop := l } := by
  obtain ⟨hguard, h⟩ := Option.ite_none_right_eq_some.mp h
  obtain ⟨l, hl, rfl⟩ := Option.map_eq_some_iff.mp h
  exact ⟨hguard, l, step_steps hl, rfl⟩

/-- The worker is inside `loop()` exactly when it is not outside; the pointer is set from the
publication on; and the loop thread is in the middle of a call only in a callback. -/
structure Placed (loopThread : ThreadId) (s : LoopThread F) : Prop where
  inside : s.worker = .looping ↔ s.loop.point ≠ .outside
  unstarted : s.owner = .idle → s.worker = .notStarted
  pointer : s.loopSet = true → s.worker = .published ∨ s.worker = .looping ∨ s.worker = .returned
  busy : s.loop.Busy loopThread →
    s.worker = .constructed ∨ (s.worker = .looping ∧ s.loop.point.inCallback = true)

theorem moves_outside {l l' : EventLoop F} {m : Move} (h : Moves l m l') :
    l'.point ≠ .outside ↔ m ≠ .leave := by
  cases h with
  | runFunctor f fs hp hbatch => simp [hp]
  | _ => simp

theorem Placed.outside (h : Placed loopThread s) (hw : s.worker ≠ .looping) : s.loop.point = .outside := by
  by_contra hpoint
  exact hw (h.inside.mpr hpoint)

theorem step_placed {l : Label F} (h : Placed loopThread s) (hstep : step loopThread s l = some s') :
    Placed loopThread s' := by
  cases l with
  | startLoop =>
    obtain ⟨howner, rfl⟩ := guard_eq_some hstep
    have hworker := h.unstarted howner
    have hout := h.outside (by simp [hworker])
    exact ⟨by simp [hout], by simp, fun hset => by simpa [hworker] using h.pointer hset,
      fun hb => by simpa [hworker] using h.busy hb⟩
  | construct =>
    obtain ⟨hworker, rfl⟩ := guard_eq_some hstep
    have hout := h.outside (by simp [hworker])
    exact ⟨by simp [hout], fun howner => by simpa [hworker] using h.unstarted howner,
      fun hset => by simpa [hworker] using h.pointer hset, fun _ => .inl rfl⟩
  | publish =>
    obtain ⟨⟨hworker, hidle⟩, rfl⟩ := guard_eq_some hstep
    have hout := h.outside (by simp [hworker])
    exact ⟨by simp [hout], fun howner => by simpa [hworker] using h.unstarted howner,
      fun _ => .inl rfl, fun hb => absurd hb hidle⟩
  | startReturns =>
    obtain ⟨-, rfl⟩ := guard_eq_some hstep
    exact ⟨h.inside, by simp, h.pointer, h.busy⟩
  | loop m =>
    obtain ⟨hguard, hidle, l, hmove, rfl⟩ := step_loop hstep
    have hpoint := moves_outside hmove
    have hstill : ¬ l.Busy loopThread := by
      rw [EventLoop.Busy, moves_inFlight hmove]
      exact hidle
    have hstarted : s.owner ≠ .idle := by
      intro howner
      simp [h.unstarted howner] at hguard
    by_cases hm : m = .leave
    · exact ⟨by simpa [hm] using hpoint, fun howner => absurd howner hstarted,
        fun _ => .inr (.inr (if_pos hm)), fun hb => absurd hb hstill⟩
    · exact ⟨by simpa [hm] using hpoint, fun howner => absurd howner hstarted,
        fun _ => .inr (.inl (if_neg hm)), fun hb => absurd hb hstill⟩
  | clear =>
    obtain ⟨hworker, rfl⟩ := guard_eq_some hstep
    have hout := h.outside (by simp [hworker])
    exact ⟨by simp [hout], fun howner => by simpa [hworker] using h.unstarted howner, by simp,
      fun hb => by simpa [hworker] using h.busy hb⟩
  | call t c =>
    obtain ⟨hcall, l, hsteps, rfl⟩ := step_call hstep
    obtain ⟨hpoint, -⟩ := call_frame hsteps
    refine ⟨by simpa [hpoint] using h.inside, h.unstarted, h.pointer, fun hb => ?_⟩
    rcases call_busy hsteps hb with hb | ⟨rfl, hcallback⟩
    · simpa [hpoint] using h.busy hb
    · simp only [LoopThread.Callable, if_true] at hcall
      simpa [hpoint, hcallback] using hcall
  | ownerQuit =>
    obtain ⟨-, rfl⟩ := guard_eq_some hstep
    exact ⟨h.inside, h.unstarted, h.pointer, h.busy⟩

theorem initial_placed : Placed loopThread ({} : LoopThread F) :=
  ⟨by simp, fun _ => rfl, by simp, by simp [EventLoop.Busy]⟩

def Late (s : LoopThread F) : Prop :=
  s.worker = .looping ∨ s.worker = .returned ∨ s.worker = .cleared

/-- What can happen from then on: a move of the loop, or a step that leaves it where it is and
its `quit_` at least as set as it was. -/
theorem step_late {l : Label F} (hp : Placed loopThread s) (hlate : Late s)
    (hstep : step loopThread s l = some s') :
    (∃ m e, l = .loop m ∧ s.worker = .looping ∧ m ≠ .enter ∧ Moves s.loop m e ∧
      s' = { s with loop := e, worker := if m = .leave then .returned else .looping }) ∨
    (s'.loop.point = s.loop.point ∧ (s.loop.quit = true → s'.loop.quit = true) ∧
      (s'.worker = s.worker ∨ s'.worker = .cleared) ∧ ∀ m, l ≠ .loop m) := by
  have hworker : s.worker ≠ .notStarted ∧ s.worker ≠ .spawned ∧ s.worker ≠ .constructed ∧
      s.worker ≠ .published := by
    rcases hlate with hw | hw | hw <;> simp [hw]
  obtain ⟨hnot, hspawned, hconstructed, hpublished⟩ := hworker
  cases l with
  | startLoop => exact absurd (hp.unstarted (guard_eq_some hstep).1) hnot
  | construct => exact absurd (guard_eq_some hstep).1 hspawned
  | publish => exact absurd (guard_eq_some hstep).1.1 hconstructed
  | startReturns =>
    obtain ⟨-, rfl⟩ := guard_eq_some hstep
    exact .inr ⟨rfl, id, .inl rfl, by simp⟩
  | loop m =>
    obtain ⟨hguard, hidle, e, hmove, rfl⟩ := step_loop hstep
    obtain ⟨hw, hm⟩ := hguard.resolve_left fun h => hpublished h.1
    exact .inl ⟨m, e, rfl, hw, hm, hmove, rfl⟩
  | clear =>
    obtain ⟨-, rfl⟩ := guard_eq_some hstep
    exact .inr ⟨rfl, id, .inr rfl, by simp⟩
  | call t c =>
    obtain ⟨-, e, hsteps, rfl⟩ := step_call hstep
    obtain ⟨hpoint, hquit⟩ := call_frame hsteps
    exact .inr ⟨hpoint, hquit, .inl rfl, by simp⟩
  | ownerQuit =>
    obtain ⟨-, rfl⟩ := guard_eq_some hstep
    exact .inr ⟨rfl, fun _ => rfl, .inl rfl, by simp⟩

def Quitting (s : LoopThread F) : Prop :=
  (s.worker = .looping ∧ s.loop.point ≠ .entered ∧ s.loop.quit = true) ∨
    s.worker = .returned ∨ s.worker = .cleared

def Ending (s : LoopThread F) : Prop :=
  (s.worker = .looping ∧ s.loop.point = .leaving) ∨ s.worker = .returned ∨ s.worker = .cleared

theorem Quitting.late (h : Quitting s) : Late s := h.imp_left And.left
theorem Ending.late (h : Ending s) : Late s := h.imp_left And.left

theorem step_quitting {l : Label F} (hp : Placed loopThread s) (h : Quitting s)
    (hstep : step loopThread s l = some s') : Quitting s' ∧ (l = .loop .testQuit → Ending s') := by
  rcases step_late hp h.late hstep with ⟨m, e, rfl, hw, hm, hmove, rfl⟩ | ⟨hpoint, hquit, hworker, hl⟩
  · obtain ⟨-, hentered, hquit⟩ := h.resolve_right (by simp [hw])
    cases hmove with
    | resetQuit hpt => exact absurd hpt hentered
    | enter hpt => exact absurd rfl hm
    | proceed hpt hq =>
      rw [hquit] at hq
      cases hq
    | quit hpt hq => exact ⟨.inl ⟨rfl, by simp, hq⟩, fun _ => .inl ⟨rfl, rfl⟩⟩
    | leave hpt => exact ⟨.inr (.inl rfl), by simp⟩
    | runFunctor f fs hpt hbatch => exact ⟨.inl ⟨rfl, hentered, hquit⟩, by simp⟩
    | _ => exact ⟨.inl ⟨rfl, by simp, hquit⟩, by simp⟩
  · refine ⟨?_, fun heq => absurd heq (hl _)⟩
    rcases hworker with hw | hw
    · rcases h with ⟨hlooping, hentered, hq⟩ | hover
      · exact .inl ⟨hw.trans hlooping, by rwa [hpoint], hquit hq⟩
      · exact .inr (by rwa [hw])
    · exact .inr (.inr hw)

theorem step_ending {l : Label F} (hp : Placed loopThread s) (h : Ending s)
    (hstep : step loopThread s l = some s') : Ending s' := by
  rcases step_late hp h.late hstep with ⟨m, e, rfl, hw, hm, hmove, rfl⟩ | ⟨hpoint, -, hworker, -⟩
  · obtain ⟨-, hleaving⟩ := h.resolve_right (by simp [hw])
    cases hmove with
    | leave hpt => exact .inr (.inl rfl)
    | _ => simp_all
  · rcases hworker with hw | hw
    · rcases h with ⟨hlooping, hleaving⟩ | hover
      · exact .inl ⟨hw.trans hlooping, hpoint.trans hleaving⟩
      · exact .inr (by rwa [hw])
    · exact .inr (.inr hw)

theorem Ending.no_poll (h : Ending s) : step loopThread s (.loop .startPoll) = none := by
  by_contra hsome
  obtain ⟨s', hs'⟩ := Option.ne_none_iff_exists'.mp hsome
  obtain ⟨hguard, -, e, hmove, -⟩ := step_loop hs'
  cases hmove with
  | startPoll hready =>
    rcases h with ⟨-, hleaving⟩ | hover
    · rw [hready] at hleaving
      cases hleaving
    · rcases hover with hw | hw <;> simp [hw] at hguard

theorem run_ending {labels : List (Label F)} (hp : Placed loopThread s) (h : Ending s)
    (hrun : run (step loopThread) s labels = some s') : Ending s' := by
  have hstep : ∀ (v : LoopThread F) (l : Label F) (v' : LoopThread F),
      (Placed loopThread v ∧ Ending v) → step loopThread v l = some v' →
        Placed loopThread v' ∧ Ending v' := by
    intro v l v' hv hs
    exact ⟨step_placed hv.1 hs, step_ending hv.1 hv.2 hs⟩
  exact (run_preserves hstep ⟨hp, h⟩ hrun).2

theorem run_quitting {labels : List (Label F)} (hp : Placed loopThread s) (h : Quitting s)
    (hrun : run (step loopThread) s labels = some s') :
    Quitting s' ∧ (.loop .testQuit ∈ labels → Ending s') := by
  induction labels generalizing s with
  | nil =>
    obtain rfl := Option.some.inj hrun
    exact ⟨h, by simp⟩
  | cons l labels ih =>
    obtain ⟨s₁, h₁, h₂⟩ := run_cons.mp hrun
    obtain ⟨hquitting, hending⟩ := step_quitting hp h h₁
    have hp₁ := step_placed hp h₁
    obtain ⟨hq, he⟩ := ih hp₁ hquitting h₂
    refine ⟨hq, fun hmem => ?_⟩
    rcases List.mem_cons.mp hmem with hl | hmem
    · exact run_ending hp₁ (hending hl.symm) h₂
    · exact he hmem

theorem kept_of_quitting (hp : Placed loopThread s) (h : Quitting s) : QuitKept loopThread s := by
  intro labels s' hrun
  obtain ⟨hquitting, hending⟩ := run_quitting hp h hrun
  refine ⟨fun hreturned hcleared => ?_, fun hmem => (hending hmem).no_poll⟩
  exact (hquitting.resolve_right (not_or.mpr ⟨hreturned, hcleared⟩)).2.2

/-- A request that is there when `loop()` is about to reset `quit_` is overwritten. -/
theorem not_kept_entered (hw : s.worker = .looping) (hentered : s.loop.point = .entered)
    (hidle : ¬ s.loop.Busy loopThread) : ¬ QuitKept loopThread s := by
  intro hkept
  have hreset : run (step loopThread) s [.loop .resetQuit] =
      some { s with worker := .looping, loop := { s.loop with point := .test, quit := false, accepted := [] } } := by
    simp [run, step, EventLoopModel.step, EventLoop.move, hw, hentered, hidle]
  have htrue := (hkept _ _ hreset).1 (by simp) (by simp)
  cases htrue

/-- So is one that is there when the worker has published `loop_` and not yet called `loop()`. -/
theorem not_kept_published (hw : s.worker = .published) (hout : s.loop.point = .outside)
    (hidle : ¬ s.loop.Busy loopThread) : ¬ QuitKept loopThread s := by
  intro hkept
  have henter : step loopThread s (.loop .enter) =
      some { s with worker := .looping, loop := { s.loop with point := .entered } } := by
    simp [step, EventLoopModel.step, EventLoop.move, hw, hout, hidle]
  refine not_kept_entered (s := { s with worker := .looping, loop := { s.loop with point := .entered } })
    rfl rfl hidle fun labels s' hrun => ?_
  obtain ⟨hquit, hpoll⟩ := hkept (.loop .enter :: labels) s' (run_cons.mpr ⟨_, henter, hrun⟩)
  exact ⟨hquit, fun hmem => hpoll (List.mem_cons_of_mem _ hmem)⟩

/-- In every run: the owner's `quit()` is kept exactly when the worker has by then executed
the `quit_ = false` with which `loop()` begins. -/
theorem quit_kept_iff (loopThread : ThreadId) (labels : List (Label F)) (s s₁ : LoopThread F)
    (hrun : run (step loopThread) {} labels = some s)
    (hquit : step loopThread s .ownerQuit = some s₁) : QuitKept loopThread s₁ ↔ Begun s := by
  have hp : Placed loopThread s := run_preserves (fun _ _ _ h hs => step_placed h hs) initial_placed hrun
  have hp₁ := step_placed hp hquit
  obtain ⟨⟨-, hset⟩, rfl⟩ := guard_eq_some hquit
  constructor
  · intro hkept
    constructor
    · intro hw
      have hout := hp.outside (by simp [hw])
      have hidle : ¬ s.loop.Busy loopThread := by
        intro hbusy
        simpa [hw] using hp.busy hbusy
      exact not_kept_published (s := { s with loop := s.loop.requestQuit }) hw hout hidle hkept
    · intro hentered
      have hw : s.worker = .looping := hp.inside.mpr (by simp [hentered])
      have hidle : ¬ s.loop.Busy loopThread := by
        intro hbusy
        simpa [hw, hentered, Point.inCallback] using hp.busy hbusy
      exact not_kept_entered (s := { s with loop := s.loop.requestQuit }) hw hentered hidle hkept
  · rintro ⟨hpublished, hentered⟩
    refine kept_of_quitting hp₁ ?_
    rcases hp.pointer hset with hw | hw | hw
    · exact absurd hw hpublished
    · exact .inl ⟨hw, hentered, rfl⟩
    · exact .inr (.inl hw)

/-- A `quit()` while the worker is in its first poll. -/
theorem quit_kept_polling :
    let labels : List (Label ℕ) := [.startLoop, .construct, .publish, .loop .enter, .startReturns,
      .loop .resetQuit, .loop .testQuit, .loop .startPoll]
    ∃ s s₁, run (step 1) {} labels = some s ∧ step 1 s .ownerQuit = some s₁ ∧ QuitKept 1 s₁ := by
  intro labels
  have hpoint : (run (step 1) {} labels).map (fun s => (s.worker, s.loop.point)) =
      some (.looping, .polling) := by decide
  have hquits : ((run (step 1) {} labels).bind fun s => step 1 s .ownerQuit).isSome := by decide
  obtain ⟨s, hs, heq⟩ := Option.map_eq_some_iff.mp hpoint
  obtain ⟨s₁, hs₁⟩ := Option.isSome_iff_exists.mp hquits
  rw [hs, Option.bind_some] at hs₁
  simp only [Prod.mk.injEq] at heq
  refine ⟨s, s₁, hs, hs₁, (quit_kept_iff 1 labels s s₁ hs hs₁).mpr ?_⟩
  simp [Begun, heq.1, heq.2]

/-- The owner quits right after `start_loop()`, before the worker has called `loop()`. -/
theorem quit_lost_at_start :
    ¬ ∀ (loopThread : ThreadId) (labels : List (Label ℕ)) (s s₁ : LoopThread ℕ),
      run (step loopThread) {} labels = some s → step loopThread s .ownerQuit = some s₁ →
        QuitKept loopThread s₁ := by
  intro h
  let labels : List (Label ℕ) := [.startLoop, .construct, .publish, .startReturns]
  have hquits : ((run (step 1) {} labels).bind fun s => step 1 s .ownerQuit).isSome := by decide
  obtain ⟨s₁, hbind⟩ := Option.isSome_iff_exists.mp hquits
  obtain ⟨s, hs, hs₁⟩ := Option.bind_eq_some_iff.mp hbind
  have hpolls : ((run (step 1) {} labels).bind fun s => (step 1 s .ownerQuit).bind fun s₁ =>
      run (step 1) s₁ [.loop .enter, .loop .resetQuit]).map (fun s' => (s'.worker, s'.loop.quit)) =
      some (.looping, false) := by decide
  rw [hs, Option.bind_some, hs₁, Option.bind_some] at hpolls
  obtain ⟨s', hs', heq⟩ := Option.map_eq_some_iff.mp hpolls
  simp only [Prod.mk.injEq] at heq
  have htrue := (h 1 labels s s₁ hs hs₁ _ s' hs').1 (by simp [heq.1]) (by simp [heq.1])
  rw [heq.2] at htrue
  cases htrue

end TzzeroHttp.EventLoopThread
