import TzzeroHttp.Simulation
import TzzeroHttp.EventLoopQuit

/-! The eventfd that wakes a loop up. `queue_in_loop` pushes under the mutex and writes to the
eventfd afterwards, `quit()` from another thread stores its flag and writes afterwards; the loop
thread reads the eventfd from an I/O callback, before it takes the queue. A poll with an unread
eventfd does not block, so what matters is when the counter is zero. -/
namespace TzzeroHttp.EventLoopWakeup
open EventLoopModel Runs

/-- The largest value of an eventfd. -/
def maxCounter : ℕ := 2 ^ 64 - 2

/-- `waking` are the threads between the store of their `quit()` and its `wake_up()`. -/
structure WakeLoop (F : Type*) where
  loop : EventLoop F := {}
  counter : ℕ := 0
  waking : List ThreadId := []

inductive Label (F : Type*)
  | loop (move : Move)
  | call (thread : ThreadId) (call : Call F)
  | wakeUp (thread : ThreadId)
  | handleWakeUp

variable {F : Type*}

namespace WakeLoop

/-- A write of one that would overflow fails, and nobody looks at its result. -/
def wakeUp (w : WakeLoop F) : WakeLoop F :=
  { w with counter := if w.counter < maxCounter then w.counter + 1 else w.counter }

def lift (loopThread : ThreadId) (w : WakeLoop F) (l : EventLoopModel.Label F) : Option (WakeLoop F) :=
  (EventLoopModel.step loopThread w.loop l).map fun s => { w with loop := s }

end WakeLoop

/-- One step. The read empties the counter; it is made by a callback of the loop thread. -/
def step (loopThread : ThreadId) (w : WakeLoop F) : Label F → Option (WakeLoop F)
  | .loop m => w.lift loopThread (.loop m)
  | .call t (.queue f) => if t ∈ w.waking then none else w.lift loopThread (.call t (.queue f))
  | .call t .queued => (w.lift loopThread (.call t .queued)).map WakeLoop.wakeUp
  | .call t .quit =>
    if t ∈ w.waking then none
    else (w.lift loopThread (.call t .quit)).map fun w' =>
      { w' with waking := if t = loopThread then w.waking else t :: w.waking }
  | .wakeUp t =>
    if t ∈ w.waking then some (WakeLoop.wakeUp { w with waking := w.waking.erase t }) else none
  | .handleWakeUp =>
    if w.loop.point = .dispatching ∧ ¬ w.loop.Busy loopThread then some { w with counter := 0 } else none

variable {loopThread : ThreadId} {w w' : WakeLoop F}

inductive Moved (loopThread : ThreadId) (w : WakeLoop F) : Label F → WakeLoop F → Prop
  | loop (m : Move) (s : EventLoop F) (hmove : Moves w.loop m s) :
    Moved loopThread w (.loop m) { w with loop := s }
  | queue (t : ThreadId) (f : F) : Moved loopThread w (.call t (.queue f)) { w with loop := w.loop.queueInLoop t f }
  | queued (t : ThreadId) (c : ThreadId × ℕ) (hc : w.loop.inFlight.find? (fun c => c.1 = t) = some c) :
    Moved loopThread w (.call t .queued) (WakeLoop.wakeUp { w with loop := { w.loop with
      inFlight := w.loop.inFlight.erase c, returned := w.loop.returned ++ [c.2] } })
  | quit (t : ThreadId) (hcallback : t = loopThread → w.loop.point.inCallback = true) :
    Moved loopThread w (.call t .quit) { w with
      loop := w.loop.requestQuit, waking := if t = loopThread then w.waking else t :: w.waking }
  | wakeUp (t : ThreadId) : Moved loopThread w (.wakeUp t) (WakeLoop.wakeUp { w with waking := w.waking.erase t })
  | handleWakeUp (hp : w.loop.point = .dispatching) : Moved loopThread w .handleWakeUp { w with counter := 0 }

theorem lift_eq_some {l : EventLoopModel.Label F} (h : w.lift loopThread l = some w') :
    ∃ s, Steps loopThread w.loop l s ∧ w' = { w with loop := s } := by
  obtain ⟨s, hs, rfl⟩ := Option.map_eq_some_iff.mp h
  exact ⟨s, step_steps hs, rfl⟩

theorem step_moved {l : Label F} (h : step loopThread w l = some w') : Moved loopThread w l w' := by
  cases l with
  | loop m =>
    obtain ⟨s, hs, rfl⟩ := lift_eq_some h
    cases hs with
    | loop m s hidle hmove => exact .loop m s hmove
  | call t c =>
    cases c with
    | queue f =>
      obtain ⟨-, h⟩ := Option.ite_none_left_eq_some.mp h
      obtain ⟨s, hs, rfl⟩ := lift_eq_some h
      cases hs with
      | queue t f hidle hcallback => exact .queue t f
    | queued =>
      obtain ⟨v, hv, rfl⟩ := Option.map_eq_some_iff.mp h
      obtain ⟨s, hs, rfl⟩ := lift_eq_some hv
      cases hs with
      | queued t c hc => exact .queued t c hc
    | quit =>
      obtain ⟨-, h⟩ := Option.ite_none_left_eq_some.mp h
      obtain ⟨v, hv, rfl⟩ := Option.map_eq_some_iff.mp h
      obtain ⟨s, hs, rfl⟩ := lift_eq_some hv
      cases hs with
      | quit t hidle hcallback => exact .quit t hcallback
  | wakeUp t =>
    obtain ⟨-, rfl⟩ := guard_eq_some h
    exact .wakeUp t
  | handleWakeUp =>
    obtain ⟨⟨hp, -⟩, rfl⟩ := guard_eq_some h
    exact .handleWakeUp hp

@[simp] theorem wakeUp_loop (w : WakeLoop F) : w.wakeUp.loop = w.loop := rfl

@[simp] theorem wakeUp_waking (w : WakeLoop F) : w.wakeUp.waking = w.waking := rfl

theorem wakeUp_counter (w : WakeLoop F) : 0 < w.wakeUp.counter := by
  unfold WakeLoop.wakeUp
  split_ifs with h
  · exact Nat.succ_pos _
  · exact lt_of_lt_of_le (by decide) (Nat.le_of_not_lt h)

/-- The steps of the loop without its eventfd that match a step. -/
def unwoken (_ : WakeLoop F) : Label F → List (EventLoopModel.Label F)
  | .loop m => [.loop m]
  | .call t c => [.call t c]
  | .wakeUp _ | .handleWakeUp => []

theorem step_unwoken {l : Label F} (h : step loopThread w l = some w') :
    run (EventLoopModel.step loopThread) w.loop (unwoken w l) = some w'.loop := by
  have hlift : ∀ {v : WakeLoop F} {k}, w.lift loopThread k = some v →
      run (EventLoopModel.step loopThread) w.loop [k] = some v.loop := by
    intro v k hv
    obtain ⟨s, hs, rfl⟩ := Option.map_eq_some_iff.mp hv
    exact run_cons.mpr ⟨s, hs, rfl⟩
  cases l with
  | loop m => exact hlift h
  | call t c =>
    cases c with
    | queue f => exact hlift (Option.ite_none_left_eq_some.mp h).2
    | queued =>
      obtain ⟨v, hv, rfl⟩ := Option.map_eq_some_iff.mp h
      have hloop := hlift hv
      exact hloop
    | quit =>
      obtain ⟨v, hv, rfl⟩ := Option.map_eq_some_iff.mp (Option.ite_none_left_eq_some.mp h).2
      have hloop := hlift hv
      exact hloop
  | wakeUp t =>
    obtain ⟨-, rfl⟩ := guard_eq_some h
    rfl
  | handleWakeUp =>
    obtain ⟨-, rfl⟩ := guard_eq_some h
    rfl

/-- Every run with the eventfd is a run without it. -/
theorem run_unwoken {labels : List (Label F)} (hrun : run (step loopThread) w labels = some w') :
    run (EventLoopModel.step loopThread) w.loop (Simulation.trace (step loopThread) unwoken w labels) =
      some w'.loop := by
  have hstep : ∀ (v : WakeLoop F) (s : EventLoop F) l v', v.loop = s → step loopThread v l = some v' →
      ∃ s', run (EventLoopModel.step loopThread) s (unwoken v l) = some s' ∧ v'.loop = s' := by
    intro v s l v' hvs hl
    exact ⟨v'.loop, hvs ▸ step_unwoken hl, rfl⟩
  obtain ⟨s, hs, rfl⟩ := Simulation.run_simulates hstep rfl hrun
  exact hs

/-- What is pushed and in no batch yet is announced by the counter, unless its call has not
returned or the swap that takes it comes in this very iteration; so is a `quit()` that came
behind the last test of `quit_`. -/
structure Awake (w : WakeLoop F) : Prop where
  counted : EventLoopQuit.Counted w.loop
  pushed : w.loop.point ≠ .dispatching →
    ∀ i ∈ w.loop.returned, w.loop.ran.length + w.loop.batch.length ≤ i → 0 < w.counter
  quit : w.loop.point = .ready ∨ w.loop.point = .polling → w.loop.quit = true →
    0 < w.counter ∨ w.waking ≠ []

theorem step_counted {l : Label F} (h : EventLoopQuit.Counted w.loop)
    (hstep : step loopThread w l = some w') : EventLoopQuit.Counted w'.loop :=
  run_preserves (fun _ _ _ hs hl => EventLoopQuit.step_counted hs hl) h (step_unwoken hstep)

theorem moves_awake {m : Move} {s : EventLoop F} (h : Awake w) (hcounted : EventLoopQuit.Counted s)
    (hm : Moves w.loop m s) : Awake { w with loop := s } := by
  have hpushed := h.pushed
  have hquit := h.quit
  refine ⟨hcounted, ?_, ?_⟩
  · intro hp' i hi hle
    cases hm with
    | swap hp =>
      -- everything that was pushed is in the batch now
      have hlt : i < w.loop.pushed.length := hcounted.returned_lt i hi
      have horder := congrArg List.length hcounted.ordered.order
      simp only [List.append_nil, List.length_append] at horder hle
      omega
    | runFunctor f fs hp hbatch =>
      refine hpushed (by simp [hp]) i hi ?_
      simp only [List.length_append, List.length_singleton] at hle
      simp only [hbatch, List.length_cons]
      omega
    | events hp => exact absurd rfl hp'
    | enter hp | resetQuit hp | startPoll hp | interrupted hp | failed hp | leave hp =>
      exact hpushed (by simp [hp]) i hi hle
    | proceed hp hq | quit hp hq | endBatch hp hq => exact hpushed (by simp [hp]) i hi hle
  · intro hp' hq'
    cases hm with
    | proceed hp hq =>
      rw [hq] at hq'
      cases hq'
    | startPoll hp => exact hquit (.inl hp) hq'
    | runFunctor f fs hp hbatch => simp [hp] at hp'
    | _ => simp at hp'

theorem step_awake {l : Label F} (h : Awake w) (hstep : step loopThread w l = some w') : Awake w' := by
  have hcounted := step_counted h.counted hstep
  cases step_moved hstep with
  | loop m s hmove => exact moves_awake h hcounted hmove
  | queue t f => exact ⟨hcounted, h.pushed, h.quit⟩
  | queued t c hc => exact ⟨hcounted, fun _ _ _ _ => wakeUp_counter _, fun _ _ => .inl (wakeUp_counter _)⟩
  | quit t hcallback =>
    refine ⟨hcounted, h.pushed, fun hp _ => ?_⟩
    by_cases ht : t = loopThread
    · have hin := hcallback ht
      rcases hp with hp | hp <;> simp [show w.loop.point = _ from hp, Point.inCallback] at hin
    · simp [ht]
  | wakeUp t => exact ⟨hcounted, fun _ _ _ _ => wakeUp_counter _, fun _ _ => .inl (wakeUp_counter _)⟩
  | handleWakeUp hp =>
    refine ⟨hcounted, fun hne => absurd hp hne, fun hp' => ?_⟩
    rcases hp' with hp' | hp' <;> rw [hp] at hp' <;> cases hp'

theorem initial_awake : Awake ({} : WakeLoop F) :=
  ⟨EventLoopQuit.initial_counted, by simp, by simp⟩

/-- No wake-up is lost: whenever the loop thread is in a poll that the eventfd does not end, every
functor whose `queue_in_loop` has returned has been run, and a `quit()` that has been stored has
its write still to come. -/
theorem sleeps_only_idle (loopThread : ThreadId) (labels : List (Label F)) (w : WakeLoop F)
    (hrun : run (step loopThread) {} labels = some w) (hpoll : w.loop.point = .polling)
    (hzero : w.counter = 0) :
    w.loop.ran <+: w.loop.pushed ∧ (∀ i ∈ w.loop.returned, i < w.loop.ran.length) ∧
      (w.loop.quit = true → w.waking ≠ []) := by
  have h : Awake w := run_preserves (fun _ _ _ => step_awake) initial_awake hrun
  have hbatch := h.counted.ordered.batch (by simp [hpoll])
  refine ⟨⟨w.loop.pending, ?_⟩, fun i hi => ?_, fun hq => ?_⟩
  · simpa [hbatch] using h.counted.ordered.order
  · by_contra hlate
    have hcounter := h.pushed (by simp [hpoll]) i hi (by simp only [hbatch, List.length_nil]; omega)
    omega
  · exact (h.quit (.inr hpoll) hq).resolve_left (by omega)

/-- A `quit()` whose write comes late, behind a wake-up that has been read. -/
theorem sleeps_only_idle_late_quit :
    let labels : List (Label ℕ) := [.loop .enter, .loop .resetQuit, .loop .testQuit, .loop .startPoll,
      .call 1 (.queue 10), .call 1 .queued, .loop (.pollReturns .events), .handleWakeUp, .loop .swap,
      .loop .runFunctor, .loop .endBatch, .loop .testQuit, .call 1 .quit, .loop .startPoll]
    ∃ w, run (step 0) {} labels = some w ∧ w.loop.quit = true ∧ w.waking ≠ [] := by
  intro labels
  have hend : (run (step 0) {} labels).map (fun w => (w.loop.point, w.counter, w.loop.quit)) =
      some (.polling, 0, true) := by decide
  obtain ⟨w, hw, heq⟩ := Option.map_eq_some_iff.mp hend
  simp only [Prod.mk.injEq] at heq
  exact ⟨w, hw, heq.2.2, (sleeps_only_idle 0 labels w hw heq.1 heq.2.1).2.2 heq.2.2⟩

def isStartPoll : EventLoopModel.Label F → Bool
  | .loop .startPoll => true
  | _ => false

/-- How far a pushed functor is after some polls: the first one leads to the swap that takes it,
and the second comes when the batch has been run. -/
structure Due (i polls : ℕ) (s : EventLoop F) : Prop where
  counted : EventLoopQuit.Counted s
  pushed : i < s.pushed.length
  first : polls = 1 → s.point = .polling ∨ s.point = .dispatching ∨ i < s.ran.length + s.batch.length
  second : 2 ≤ polls → i < s.ran.length

variable {s s' : EventLoop F} {i polls : ℕ}

theorem moves_due {m : Move} (h : Due i polls s) (hcalm : ∀ r, m = .pollReturns r → r = .events)
    (hcounted : EventLoopQuit.Counted s') (hm : Moves s m s') :
    Due i (polls + if m = .startPoll then 1 else 0) s' := by
  have hbatch := h.counted.ordered.batch
  have hfirst := h.first
  have hsecond := h.second
  cases hm with
  | startPoll hp =>
    refine ⟨hcounted, h.pushed, fun _ => .inl rfl, fun htwo => ?_⟩
    by_cases hone : polls = 1
    · have hdue := hfirst hone
      simpa [hp, hbatch (by simp [hp])] using hdue
    · exact hsecond (by simp only [if_true] at htwo; omega)
  | swap hp =>
    refine ⟨hcounted, h.pushed, fun _ => .inr (.inr ?_), hsecond⟩
    have horder := congrArg List.length hcounted.ordered.order
    have hlt := h.pushed
    simp only [List.append_nil, List.length_append] at horder ⊢
    omega
  | runFunctor f fs hp hbatch =>
    refine ⟨hcounted, h.pushed, fun hone => .inr (.inr ?_), fun htwo => ?_⟩
    · have hdue := hfirst hone
      simp only [hp, hbatch, List.length_cons, reduceCtorEq, false_or] at hdue
      simp only [List.length_append, List.length_singleton]
      omega
    · have hdue := hsecond htwo
      simp only [List.length_append, List.length_singleton]
      omega
  | interrupted hp => cases hcalm _ rfl
  | failed hp => cases hcalm _ rfl
  | events hp => exact ⟨hcounted, h.pushed, fun _ => .inr (.inl rfl), hsecond⟩
  | enter hp | resetQuit hp | leave hp =>
    exact ⟨hcounted, h.pushed, fun hone => .inr (.inr (by simpa [hp] using hfirst hone)), hsecond⟩
  | proceed hp hq | quit hp hq | endBatch hp hq =>
    exact ⟨hcounted, h.pushed, fun hone => .inr (.inr (by simpa [hp] using hfirst hone)), hsecond⟩

theorem step_due {l : EventLoopModel.Label F} (h : Due i polls s)
    (hcalm : ∀ r, l = .loop (.pollReturns r) → r = .events)
    (hstep : EventLoopModel.step loopThread s l = some s') :
    Due i (polls + (isStartPoll l).toNat) s' := by
  have hcounted := EventLoopQuit.step_counted h.counted hstep
  cases step_steps hstep with
  | loop m s' hidle hmove =>
    have hdue := moves_due h (fun r hr => hcalm r (by rw [hr])) hcounted hmove
    have htoNat : (isStartPoll (.loop m : EventLoopModel.Label F)).toNat =
        if m = .startPoll then 1 else 0 := by cases m <;> rfl
    rwa [htoNat]
  | queue t f hidle hcallback =>
    have hlt := h.pushed
    refine ⟨hcounted, ?_, h.first, h.second⟩
    simp only [EventLoop.queueInLoop, List.length_append, List.length_singleton]
    omega
  | queued t c hc => exact ⟨hcounted, h.pushed, h.first, h.second⟩
  | quit t hidle hcallback => exact ⟨hcounted, h.pushed, h.first, h.second⟩

theorem run_due {labels : List (EventLoopModel.Label F)} (h : Due i polls s)
    (hcalm : ∀ r, .loop (.pollReturns r) ∈ labels → r = .events)
    (hrun : run (EventLoopModel.step loopThread) s labels = some s') :
    Due i (polls + labels.countP isStartPoll) s' := by
  induction labels generalizing s polls with
  | nil =>
    obtain rfl := Option.some.inj hrun
    exact h
  | cons l labels ih =>
    obtain ⟨s₁, hfirst, hrest⟩ := run_cons.mp hrun
    have hdue := step_due h (fun r hr => hcalm r (hr ▸ List.mem_cons_self)) hfirst
    have hend := ih hdue (fun r hr => hcalm r (List.mem_cons_of_mem l hr)) hrest
    have hcount : (l :: labels).countP isStartPoll = (isStartPoll l).toNat + labels.countP isStartPoll := by
      rw [List.countP_cons, add_comm]
      cases isStartPoll l <;> rfl
    rwa [hcount, ← add_assoc]

theorem run_pushed {labels : List (EventLoopModel.Label F)}
    (hrun : run (EventLoopModel.step loopThread) s labels = some s') : s.pushed <+: s'.pushed := by
  have hstep : ∀ (t : EventLoop F) l t', s.pushed <+: t.pushed →
      EventLoopModel.step loopThread t l = some t' → s.pushed <+: t'.pushed := by
    intro t l t' ht hl
    cases step_steps hl with
    | loop m t' hidle hmove => cases hmove <;> exact ht
    | queue u f hidle hcallback => exact ht.trans (List.prefix_append t.pushed [f])
    | queued u c hc => exact ht
    | quit u hidle hcallback => exact ht
  exact run_preserves hstep List.prefix_rfl hrun

theorem pushed_ran {more : List (EventLoopModel.Label F)} (hcounted : EventLoopQuit.Counted s)
    (hmore : run (EventLoopModel.step loopThread) s more = some s')
    (hcalm : ∀ r, .loop (.pollReturns r) ∈ more → r = .events)
    (hpolls : 2 ≤ more.countP isStartPoll) : s.pushed <+: s'.ran := by
  have hcounted' : EventLoopQuit.Counted s' :=
    run_preserves (fun _ _ _ hs hl => EventLoopQuit.step_counted hs hl) hcounted hmore
  have hran : s'.ran <+: s'.pushed := ⟨s'.batch ++ s'.pending, by
    rw [← List.append_assoc, hcounted'.ordered.order]⟩
  refine List.prefix_of_prefix_length_le (run_pushed hmore) hran ?_
  -- the last of the functors is the one that waits longest
  by_contra hlt
  have hlast : Due (s.pushed.length - 1) 0 s := ⟨hcounted, by omega, by simp, by simp⟩
  have hdone := (run_due hlast hcalm hmore).second (by omega)
  omega

/-- A functor waits for two polls at most: when no poll is interrupted or fails, everything that
had been pushed at some moment has been run, in that order, once a second poll begins. -/
theorem run_by_second_poll (loopThread : ThreadId) (labels more : List (EventLoopModel.Label F))
    (s s' : EventLoop F) (hrun : run (EventLoopModel.step loopThread) {} labels = some s)
    (hmore : run (EventLoopModel.step loopThread) s more = some s')
    (hcalm : ∀ r, .loop (.pollReturns r) ∈ more → r = .events)
    (hpolls : 2 ≤ more.countP isStartPoll) : s.pushed <+: s'.ran := by
  have hcounted : EventLoopQuit.Counted s :=
    run_preserves (fun _ _ _ hs hl => EventLoopQuit.step_counted hs hl) EventLoopQuit.initial_counted hrun
  exact pushed_ran hcounted hmore hcalm hpolls

/-- The functor is pushed behind the swap of an iteration. -/
theorem run_by_second_poll_behind_swap :
    let labels : List (EventLoopModel.Label ℕ) := [.loop .enter, .loop .resetQuit, .loop .testQuit,
      .loop .startPoll, .loop (.pollReturns .events), .loop .swap, .call 1 (.queue 10)]
    let more : List (EventLoopModel.Label ℕ) := [.loop .endBatch, .loop .testQuit, .loop .startPoll,
      .loop (.pollReturns .events), .loop .swap, .loop .runFunctor, .loop .endBatch, .loop .testQuit,
      .loop .startPoll]
    ∃ s s', run (EventLoopModel.step 0) {} labels = some s ∧ s.pushed = [10] ∧
      run (EventLoopModel.step 0) s more = some s' ∧ s.pushed <+: s'.ran := by
  intro labels more
  have hend : (run (EventLoopModel.step 0) {} labels).map (fun s => s.pushed) = some [10] := by decide
  obtain ⟨s, hs, hpushed⟩ := Option.map_eq_some_iff.mp hend
  have hwhole : (run (EventLoopModel.step 0) {} (labels ++ more)).isSome = true := by decide
  obtain ⟨s', hs'⟩ := Option.isSome_iff_exists.mp hwhole
  obtain ⟨s₁, hfirst, hmore⟩ := run_append.mp hs'
  obtain rfl := Option.some.inj (hs.symm.trans hfirst)
  exact ⟨s, s', hs, hpushed, hmore,
    run_by_second_poll 0 labels more s s' hs hmore (by simp [more]) (by decide)⟩

end TzzeroHttp.EventLoopWakeup
