import TzzeroHttp.EventLoopModel

/-! What a quitting loop leaves behind. `quit_` is tested between two iterations, and a functor
that is pushed behind the swap of the last one stays in the queue: a `quit()` from a functor, or
during a batch, loses what was queued since that swap, and a poll that EINTR ends takes the loop
back to the test without a swap. -/
namespace TzzeroHttp.EventLoopQuit
open EventLoopModel Runs

variable {F : Type*}

/-- When the test of `quit_` ends the loop, every functor whose `queue_in_loop` had returned
at the last `quit()` has been run. -/
def KeepsWork (s : EventLoop F) : Label F → Prop
  | .loop .testQuit => s.quit = true → ∀ i ∈ s.accepted, i < s.ran.length
  | _ => True

/-- The steps that lose nothing: a `quit()` that comes at the test or during a batch finds
every returned functor run or in the batch, and a poll is not interrupted between a `quit()`
and the run of what it should wait for. -/
def Timely (s : EventLoop F) : Label F → Prop
  | .call _ .quit =>
    s.point = .test ∨ s.point = .functors → ∀ i ∈ s.returned, i < s.ran.length + s.batch.length
  | .loop (.pollReturns .interrupted) => s.quit = true → ∀ i ∈ s.accepted, i < s.ran.length
  | _ => True

instance decidableTimely (s : EventLoop F) : ∀ l, Decidable (Timely s l)
  | .call _ .quit => inferInstanceAs (Decidable (_ → _))
  | .loop (.pollReturns .interrupted) => inferInstanceAs (Decidable (_ → _))
  | .call _ (.queue _) | .call _ .queued => .isTrue trivial
  | .loop (.pollReturns .events) | .loop (.pollReturns .failed) => .isTrue trivial
  | .loop .enter | .loop .resetQuit | .loop .testQuit | .loop .startPoll => .isTrue trivial
  | .loop .swap | .loop .runFunctor | .loop .endBatch | .loop .leave => .isTrue trivial

instance decidableKeepsWork (s : EventLoop F) : ∀ l, Decidable (KeepsWork s l)
  | .loop .testQuit => inferInstanceAs (Decidable (_ → _))
  | .call _ _ => .isTrue trivial
  | .loop .enter | .loop .resetQuit | .loop .startPoll | .loop (.pollReturns _) => .isTrue trivial
  | .loop .swap | .loop .runFunctor | .loop .endBatch | .loop .leave => .isTrue trivial

structure Counted (s : EventLoop F) : Prop where
  ordered : Ordered s
  inFlight_lt : ∀ c ∈ s.inFlight, c.2 < s.pushed.length
  returned_lt : ∀ i ∈ s.returned, i < s.pushed.length
  accepted_returned : ∀ i ∈ s.accepted, i ∈ s.returned
  unset : s.quit = false → s.accepted = []

/-- From here on, nothing that `quit()` should wait for is missed. -/
def Covered (s : EventLoop F) : Prop :=
  s.point = .test ∨ s.point = .functors → ∀ i ∈ s.accepted, i < s.ran.length + s.batch.length

variable {loopThread : ThreadId} {s s' : EventLoop F}

theorem moves_counted {m : Move} (h : Counted s) (hm : Moves s m s') : Counted s' := by
  have hordered := moves_ordered h.ordered hm
  cases hm with
  | resetQuit hp => exact { h with ordered := hordered, accepted_returned := by simp, unset := fun _ => rfl }
  | _ => exact { h with ordered := hordered }

theorem step_counted {l : Label F} (h : Counted s) (hstep : step loopThread s l = some s') :
    Counted s' := by
  have hordered := step_ordered h.ordered hstep
  cases step_steps hstep with
  | loop m s' hidle hmove => exact moves_counted h hmove
  | queue t f hidle hcallback =>
    refine { h with ordered := hordered, inFlight_lt := ?_, returned_lt := ?_ }
    · intro c hc
      simp only [EventLoop.queueInLoop, List.mem_append, List.mem_singleton, List.length_append,
        List.length_singleton] at hc ⊢
      rcases hc with hc | rfl
      · exact Nat.lt_succ_of_lt (h.inFlight_lt c hc)
      · exact Nat.lt_succ_self _
    · intro i hi
      simp only [EventLoop.queueInLoop, List.length_append, List.length_singleton]
      exact Nat.lt_succ_of_lt (h.returned_lt i hi)
  | queued t c hc =>
    refine { h with
      ordered := hordered, inFlight_lt := ?_, returned_lt := ?_, accepted_returned := ?_ }
    · exact fun d hd => h.inFlight_lt d (List.mem_of_mem_erase hd)
    · intro i hi
      rcases List.mem_append.mp hi with hi | hi
      · exact h.returned_lt i hi
      · obtain rfl := List.mem_singleton.mp hi
        exact h.inFlight_lt c (List.mem_of_find?_eq_some hc)
    · exact fun i hi => List.mem_append_left _ (h.accepted_returned i hi)
  | quit t hidle hcallback =>
    exact { h with ordered := hordered, accepted_returned := fun _ hi => hi, unset := by simp [EventLoop.requestQuit] }

theorem initial_counted : Counted ({} : EventLoop F) :=
  ⟨initial_ordered, by simp, by simp, by simp, fun _ => rfl⟩

theorem covered_of_point (htest : s.point ≠ .test) (hfunctors : s.point ≠ .functors) : Covered s := by
  rintro (h | h)
  · exact absurd h htest
  · exact absurd h hfunctors

theorem covered_of_unset (h : Counted s) (hq : s.quit = false) : Covered s := by
  intro _ i hi
  rw [h.unset hq] at hi
  cases hi

/-- At the swap everything pushed enters the batch. -/
theorem covered_swap (h : Counted s) (hp : s.point = .dispatching) :
    Covered { s with point := .functors, batch := s.pending, pending := [] } := by
  intro _ i hi
  have hlt := h.returned_lt i (h.accepted_returned i hi)
  have hnil := h.ordered.batch (by simp [hp])
  have hpushed := congrArg List.length h.ordered.order
  simp only [hnil, List.append_nil, List.length_append] at hpushed
  show i < s.ran.length + s.pending.length
  omega

theorem moves_keepsWork {m : Move} (h : Counted s) (hm : Moves s m s') :
    (KeepsWork s (.loop m) ∧ Covered s') ↔ (Covered s ∧ Timely s (.loop m)) := by
  cases hm with
  | enter hp | startPoll hp | events hp | failed hp | leave hp =>
    have hbefore : Covered s := covered_of_point (by simp [hp]) (by simp [hp])
    exact iff_of_true ⟨trivial, covered_of_point (by simp) (by simp)⟩ ⟨hbefore, trivial⟩
  | resetQuit hp =>
    have hbefore : Covered s := covered_of_point (by simp [hp]) (by simp [hp])
    exact iff_of_true ⟨trivial, by simp [Covered]⟩ ⟨hbefore, trivial⟩
  | proceed hp hq =>
    refine iff_of_true ⟨?_, covered_of_point (by simp) (by simp)⟩ ⟨covered_of_unset h hq, trivial⟩
    simp [KeepsWork, hq]
  | quit hp hq =>
    have hnil := h.ordered.batch (by simp [hp])
    simp [KeepsWork, Timely, hq, Covered, hp, hnil]
  | interrupted hp =>
    have hnil := h.ordered.batch (by simp [hp])
    have hbefore : Covered s := covered_of_point (by simp [hp]) (by simp [hp])
    constructor
    · rintro ⟨-, hcovered⟩
      refine ⟨hbefore, fun _ i hi => ?_⟩
      simpa [hnil] using hcovered (.inl rfl) i hi
    · rintro ⟨-, htimely⟩
      refine ⟨trivial, fun _ i hi => ?_⟩
      have hq : s.quit = true := by
        by_contra hq
        rw [h.unset (by simpa using hq)] at hi
        cases hi
      exact Nat.lt_add_right _ (htimely hq i hi)
  | swap hp =>
    have hbefore : Covered s := covered_of_point (by simp [hp]) (by simp [hp])
    exact iff_of_true ⟨trivial, covered_swap h hp⟩ ⟨hbefore, trivial⟩
  | runFunctor f fs hp hbatch =>
    simp [KeepsWork, Timely, Covered, hp, hbatch, Nat.add_assoc, Nat.add_comm 1]
  | endBatch hp hbatch => simp [KeepsWork, Timely, Covered, hp]

/-- What a step owes and keeps is what was covered before and is timely now. -/
theorem step_keepsWork {l : Label F} (h : Counted s) (hstep : step loopThread s l = some s') :
    (KeepsWork s l ∧ Covered s') ↔ (Covered s ∧ Timely s l) := by
  cases step_steps hstep with
  | loop m s' hidle hmove => exact moves_keepsWork h hmove
  | queue t f hidle hcallback => exact and_comm
  | queued t c hc => exact and_comm
  | quit t hidle hcallback =>
    constructor
    · rintro ⟨-, hcovered⟩
      exact ⟨fun hp i hi => hcovered hp i (h.accepted_returned i hi), hcovered⟩
    · rintro ⟨-, htimely⟩
      exact ⟨trivial, htimely⟩

theorem run_keepsWork {labels : List (Label F)} (h : Counted s)
    (hrun : run (step loopThread) s labels = some s') :
    (Guarded (step loopThread) KeepsWork s labels ∧ Covered s') ↔
      (Covered s ∧ Guarded (step loopThread) Timely s labels) := by
  induction labels generalizing s with
  | nil =>
    obtain rfl := Option.some.inj hrun
    exact and_comm
  | cons l labels ih =>
    obtain ⟨s₁, h₁, h₂⟩ := run_cons.mp hrun
    rw [guarded_cons h₁, guarded_cons h₁, and_assoc, ih (step_counted h h₁) h₂, ← and_assoc,
      step_keepsWork h h₁, and_assoc]

/-- Over every run whose steps are timely, no `quit()` loses a functor that was accepted before
it; and a run that has lost none was timely, unless it stops on the way to a test. -/
theorem quit_keeps_work_iff (loopThread : ThreadId) (labels : List (Label F)) (s : EventLoop F)
    (hrun : run (step loopThread) {} labels = some s) :
    (Guarded (step loopThread) Timely {} labels → Guarded (step loopThread) KeepsWork {} labels) ∧
      (s.point ≠ .test → s.point ≠ .functors →
        Guarded (step loopThread) KeepsWork {} labels → Guarded (step loopThread) Timely {} labels) := by
  have hiff := run_keepsWork initial_counted hrun
  have hstart : Covered ({} : EventLoop F) := covered_of_point (by simp) (by simp)
  constructor
  · intro htimely
    exact (hiff.mpr ⟨hstart, htimely⟩).1
  · intro htest hfunctors hkeeps
    exact (hiff.mp ⟨hkeeps, covered_of_point htest hfunctors⟩).2

/-- A `quit()` from an I/O callback waits for the functor that was queued before it, though a
later one is queued during the last batch. -/
theorem quit_keeps_work_callback :
    let labels : List (Label ℕ) := [.loop .enter, .loop .resetQuit, .loop .testQuit, .loop .startPoll,
      .loop (.pollReturns .events), .call 1 (.queue 10), .call 1 .queued, .call 0 .quit, .loop .swap,
      .loop .runFunctor, .call 0 (.queue 20), .call 0 .queued, .loop .endBatch, .loop .testQuit, .loop .leave]
    ∃ s, run (step 0) {} labels = some s ∧ s.ran = [10] ∧ s.pending = [20] ∧
      Guarded (step 0) KeepsWork {} labels := by
  intro labels
  have hqueues : (run (step 0) {} labels).map (fun s => (s.ran, s.pending)) = some ([10], [20]) := by
    decide
  obtain ⟨s, hs, heq⟩ := Option.map_eq_some_iff.mp hqueues
  simp only [Prod.mk.injEq] at heq
  exact ⟨s, hs, heq.1, heq.2, (quit_keeps_work_iff 0 labels s hs).1 (by decide)⟩

/-- A functor queues another one and then calls `quit()`. -/
theorem quit_loses_functor :
    ¬ ∀ (loopThread : ThreadId) (labels : List (Label ℕ)) (s : EventLoop ℕ),
      run (step loopThread) {} labels = some s → Guarded (step loopThread) KeepsWork {} labels := by
  intro h
  let labels : List (Label ℕ) := [.loop .enter, .loop .resetQuit, .loop .testQuit, .call 1 (.queue 10),
    .call 1 .queued, .loop .startPoll, .loop (.pollReturns .events), .loop .swap, .loop .runFunctor,
    .call 0 (.queue 20), .call 0 .queued, .call 0 .quit, .loop .endBatch, .loop .testQuit, .loop .leave]
  have hruns : (run (step 0) {} labels).isSome := by decide
  obtain ⟨s, hs⟩ := Option.isSome_iff_exists.mp hruns
  exact absurd (h 0 labels s hs) (by decide)

end TzzeroHttp.EventLoopQuit
