import TzzeroHttp.Runs

/-! One event loop and the threads that call into it. The loop thread is at some point of
`EventLoop::loop()`; between its moves any thread may call `queue_in_loop` or `quit`, the loop
thread itself from a timer, an I/O callback or a functor. What a poll answers is part of the
label, and the functors are of an arbitrary type. `run_in_loop` is `queue_in_loop` from another
thread and a plain call from the loop thread. -/
namespace TzzeroHttp.EventLoopModel
open Runs

abbrev ThreadId := ℕ

/-- Where the loop thread is: `entered` is before `quit_ = false`, `test` at the condition of
the `while`, `ready` before the poll and `leaving` behind the loop. -/
inductive Point
  | outside | entered | test | ready | polling | dispatching | functors | leaving
  deriving DecidableEq, Repr

def Point.inCallback : Point → Bool
  | .outside | .dispatching | .functors => true
  | _ => false

inductive PollResult
  | events | interrupted | failed
  deriving DecidableEq, Repr

/-- `pending` is `pending_functors_` and `batch` the rest of the vector that it was swapped
into. The others record what happened: the functors started, all functors in the order in
which they were pushed, the calls of `queue_in_loop` that have pushed but not returned, with
their position, the positions of those that have returned, and what these were at the last
`quit()` since `loop()` began. -/
structure EventLoop (F : Type*) where
  point : Point := .outside
  quit : Bool := false
  pending : List F := []
  batch : List F := []
  ran : List F := []
  pushed : List F := []
  inFlight : List (ThreadId × ℕ) := []
  returned : List ℕ := []
  accepted : List ℕ := []

inductive Move
  | enter | resetQuit | testQuit | startPoll | pollReturns (result : PollResult)
  | swap | runFunctor | endBatch | leave
  deriving DecidableEq, Repr

/-- `queue_in_loop` up to its push, the wake-up and return of it, and `quit`. -/
inductive Call (F : Type*)
  | queue (f : F)
  | queued
  | quit

inductive Label (F : Type*)
  | loop (move : Move)
  | call (thread : ThreadId) (call : Call F)

namespace EventLoop

variable {F : Type*}

def Busy (s : EventLoop F) (t : ThreadId) : Prop := t ∈ s.inFlight.map Prod.fst

instance (s : EventLoop F) (t : ThreadId) : Decidable (s.Busy t) :=
  inferInstanceAs (Decidable (_ ∈ _))

/-- The statements of `loop()` and `do_pending_functors()`. What a timer, an I/O callback or a
functor does are the calls up to the next move. -/
def move (s : EventLoop F) : Move → Option (EventLoop F)
  | .enter => if s.point = .outside then some { s with point := .entered } else none
  | .resetQuit =>
    if s.point = .entered then some { s with point := .test, quit := false, accepted := [] } else none
  | .testQuit =>
    if s.point = .test then some { s with point := if s.quit then .leaving else .ready } else none
  | .startPoll => if s.point = .ready then some { s with point := .polling } else none
  | .pollReturns result =>
    if s.point = .polling then some { s with point := match result with
      | .events => .dispatching
      | .interrupted => .test
      | .failed => .leaving }
    else none
  | .swap =>
    if s.point = .dispatching then
      some { s with point := .functors, batch := s.pending, pending := [] }
    else none
  | .runFunctor =>
    match s.batch with
    | [] => none
    | f :: fs =>
      if s.point = .functors then some { s with batch := fs, ran := s.ran ++ [f] } else none
  | .endBatch =>
    if s.point = .functors ∧ s.batch = [] then some { s with point := .test } else none
  | .leave => if s.point = .leaving then some { s with point := .outside } else none

def queueInLoop (s : EventLoop F) (t : ThreadId) (f : F) : EventLoop F :=
  { s with
    pending := s.pending ++ [f], pushed := s.pushed ++ [f],
    inFlight := s.inFlight ++ [(t, s.pushed.length)] }

def queueReturns (s : EventLoop F) (t : ThreadId) : Option (EventLoop F) :=
  (s.inFlight.find? (fun c => c.1 = t)).map fun c =>
    { s with inFlight := s.inFlight.erase c, returned := s.returned ++ [c.2] }

def requestQuit (s : EventLoop F) : EventLoop F := { s with quit := true, accepted := s.returned }

end EventLoop

/-- One step. A thread in the middle of `queue_in_loop` does nothing else, and the loop thread
calls in only from a callback. -/
def step {F : Type*} (loopThread : ThreadId) (s : EventLoop F) : Label F → Option (EventLoop F)
  | .loop m => if s.Busy loopThread then none else s.move m
  | .call t .queued => s.queueReturns t
  | .call t (.queue f) =>
    if s.Busy t ∨ (t = loopThread ∧ s.point.inCallback = false) then none else some (s.queueInLoop t f)
  | .call t .quit =>
    if s.Busy t ∨ (t = loopThread ∧ s.point.inCallback = false) then none else some s.requestQuit

variable {F : Type*} {loopThread : ThreadId} {s s' : EventLoop F}

inductive Moves (s : EventLoop F) : Move → EventLoop F → Prop
  | enter (hp : s.point = .outside) : Moves s .enter { s with point := .entered }
  | resetQuit (hp : s.point = .entered) :
    Moves s .resetQuit { s with point := .test, quit := false, accepted := [] }
  | proceed (hp : s.point = .test) (hq : s.quit = false) : Moves s .testQuit { s with point := .ready }
  | quit (hp : s.point = .test) (hq : s.quit = true) : Moves s .testQuit { s with point := .leaving }
  | startPoll (hp : s.point = .ready) : Moves s .startPoll { s with point := .polling }
  | events (hp : s.point = .polling) : Moves s (.pollReturns .events) { s with point := .dispatching }
  | interrupted (hp : s.point = .polling) : Moves s (.pollReturns .interrupted) { s with point := .test }
  | failed (hp : s.point = .polling) : Moves s (.pollReturns .failed) { s with point := .leaving }
  | swap (hp : s.point = .dispatching) :
    Moves s .swap { s with point := .functors, batch := s.pending, pending := [] }
  | runFunctor (f : F) (fs : List F) (hp : s.point = .functors) (hbatch : s.batch = f :: fs) :
    Moves s .runFunctor { s with batch := fs, ran := s.ran ++ [f] }
  | endBatch (hp : s.point = .functors) (hbatch : s.batch = []) :
    Moves s .endBatch { s with point := .test }
  | leave (hp : s.point = .leaving) : Moves s .leave { s with point := .outside }

theorem move_moves {m : Move} (h : s.move m = some s') : Moves s m s' := by
  cases m with
  | enter =>
    obtain ⟨hp, rfl⟩ := guard_eq_some h
    exact .enter hp
  | resetQuit =>
    obtain ⟨hp, rfl⟩ := guard_eq_some h
    exact .resetQuit hp
  | testQuit =>
    obtain ⟨hp, rfl⟩ := guard_eq_some h
    cases hq : s.quit with
    | false => simpa [hq] using Moves.proceed hp hq
    | true => simpa [hq] using Moves.quit hp hq
  | startPoll =>
    obtain ⟨hp, rfl⟩ := guard_eq_some h
    exact .startPoll hp
  | pollReturns result =>
    obtain ⟨hp, rfl⟩ := guard_eq_some h
    cases result with
    | events => exact .events hp
    | interrupted => exact .interrupted hp
    | failed => exact .failed hp
  | swap =>
    obtain ⟨hp, rfl⟩ := guard_eq_some h
    exact .swap hp
  | runFunctor =>
    cases hbatch : s.batch with
    | nil => simp [EventLoop.move, hbatch] at h
    | cons f fs =>
      simp only [EventLoop.move, hbatch] at h
      obtain ⟨hp, rfl⟩ := guard_eq_some h
      exact .runFunctor f fs hp hbatch
  | endBatch =>
    obtain ⟨⟨hp, hbatch⟩, rfl⟩ := guard_eq_some h
    exact .endBatch hp hbatch
  | leave =>
    obtain ⟨hp, rfl⟩ := guard_eq_some h
    exact .leave hp

inductive Steps (loopThread : ThreadId) (s : EventLoop F) : Label F → EventLoop F → Prop
  | loop (m : Move) (s' : EventLoop F) (hidle : ¬ s.Busy loopThread) (hmove : Moves s m s') :
    Steps loopThread s (.loop m) s'
  | queue (t : ThreadId) (f : F) (hidle : ¬ s.Busy t)
      (hcallback : t = loopThread → s.point.inCallback = true) :
    Steps loopThread s (.call t (.queue f)) (s.queueInLoop t f)
  | queued (t : ThreadId) (c : ThreadId × ℕ) (hc : s.inFlight.find? (fun c => c.1 = t) = some c) :
    Steps loopThread s (.call t .queued)
      { s with inFlight := s.inFlight.erase c, returned := s.returned ++ [c.2] }
  | quit (t : ThreadId) (hidle : ¬ s.Busy t) (hcallback : t = loopThread → s.point.inCallback = true) :
    Steps loopThread s (.call t .quit) s.requestQuit

theorem step_steps {l : Label F} (h : step loopThread s l = some s') : Steps loopThread s l s' := by
  cases l with
  | loop m =>
    obtain ⟨hidle, hmove⟩ := Option.ite_none_left_eq_some.mp h
    exact .loop m s' hidle (move_moves hmove)
  | call t c =>
    cases c with
    | queued =>
      obtain ⟨c, hc, rfl⟩ := Option.map_eq_some_iff.mp h
      exact .queued t c hc
    | queue f =>
      obtain ⟨hfree, heq⟩ := Option.ite_none_left_eq_some.mp h
      obtain rfl := Option.some.inj heq
      obtain ⟨hidle, hcall⟩ := not_or.mp hfree
      exact .queue t f hidle fun ht => by simpa [ht] using hcall
    | quit =>
      obtain ⟨hfree, heq⟩ := Option.ite_none_left_eq_some.mp h
      obtain rfl := Option.some.inj heq
      obtain ⟨hidle, hcall⟩ := not_or.mp hfree
      exact .quit t hidle fun ht => by simpa [ht] using hcall

/-- A call leaves the loop thread where it is and never clears `quit_`. -/
theorem call_frame {t : ThreadId} {c : Call F} (h : Steps loopThread s (.call t c) s') :
    s'.point = s.point ∧ (s.quit = true → s'.quit = true) := by
  cases h with
  | queue t f hidle hcallback => exact ⟨rfl, id⟩
  | queued t c hc => exact ⟨rfl, id⟩
  | quit t hidle hcallback => exact ⟨rfl, fun _ => rfl⟩

/-- A thread becomes busy by its own call only, and the loop thread from a callback. -/
theorem call_busy {t : ThreadId} {c : Call F} (h : Steps loopThread s (.call t c) s')
    (hbusy : s'.Busy loopThread) :
    s.Busy loopThread ∨ (t = loopThread ∧ s.point.inCallback = true) := by
  cases h with
  | queue t f hidle hcallback =>
    simp only [EventLoop.Busy, EventLoop.queueInLoop, List.map_append, List.mem_append, List.map_cons,
      List.map_nil, List.mem_singleton] at hbusy
    rcases hbusy with hbusy | hbusy
    · exact .inl hbusy
    · exact .inr ⟨hbusy.symm, hcallback hbusy.symm⟩
  | queued t c hc =>
    obtain ⟨d, hd, hthread⟩ := List.mem_map.mp hbusy
    exact .inl (List.mem_map.mpr ⟨d, List.mem_of_mem_erase hd, hthread⟩)
  | quit t hidle hcallback => exact .inl hbusy

theorem moves_inFlight {m : Move} (h : Moves s m s') : s'.inFlight = s.inFlight := by
  cases h <;> rfl

/-- The batch is empty but while functors are run, and no functor is lost, doubled or moved. -/
structure Ordered (s : EventLoop F) : Prop where
  batch : s.point ≠ .functors → s.batch = []
  order : s.ran ++ s.batch ++ s.pending = s.pushed

theorem moves_ordered {m : Move} (h : Ordered s) (hm : Moves s m s') : Ordered s' := by
  have hempty := h.batch
  have horder := h.order
  cases hm with
  | enter hp | resetQuit hp | startPoll hp | events hp | interrupted hp | failed hp | leave hp =>
    exact ⟨fun _ => hempty (by simp [hp]), horder⟩
  | proceed hp hq | quit hp hq => exact ⟨fun _ => hempty (by simp [hp]), horder⟩
  | swap hp =>
    refine ⟨fun hne => absurd rfl hne, ?_⟩
    have hnil := hempty (by simp [hp])
    simpa [hnil] using horder
  | runFunctor f fs hp hbatch =>
    refine ⟨fun hne => absurd hp hne, ?_⟩
    simpa [hbatch] using horder
  | endBatch hp hbatch => exact ⟨fun _ => hbatch, horder⟩

theorem step_ordered {l : Label F} (h : Ordered s) (hstep : step loopThread s l = some s') :
    Ordered s' := by
  cases step_steps hstep with
  | loop m s' hidle hmove => exact moves_ordered h hmove
  | queue t f hidle hcallback =>
    refine ⟨h.batch, ?_⟩
    have horder := h.order
    simp [EventLoop.queueInLoop, ← horder]
  | queued t c hc => exact ⟨h.batch, h.order⟩
  | quit t hidle hcallback => exact ⟨h.batch, h.order⟩

theorem initial_ordered : Ordered ({} : EventLoop F) := ⟨fun _ => rfl, rfl⟩

/-- In every state of every run, what has been run, the rest of the batch and what is pending
are together the functors in the order in which they were pushed. -/
theorem functors_in_order (loopThread : ThreadId) (labels : List (Label F)) (s : EventLoop F)
    (hrun : run (step loopThread) {} labels = some s) : s.ran ++ s.batch ++ s.pending = s.pushed := by
  have hordered : Ordered s := run_preserves (fun _ _ _ h hs => step_ordered h hs) initial_ordered hrun
  exact hordered.order

/-- Two threads push; the first functor pushes a third one while the second waits in the batch. -/
theorem functors_in_order_nested :
    let labels : List (Label ℕ) := [.loop .enter, .loop .resetQuit, .loop .testQuit, .loop .startPoll,
      .call 1 (.queue 10), .call 2 (.queue 20), .call 2 .queued, .loop (.pollReturns .events), .loop .swap,
      .loop .runFunctor, .call 0 (.queue 30), .call 0 .queued]
    ∃ s, run (step 0) {} labels = some s ∧ s.ran = [10] ∧ s.batch = [20] ∧ s.pending = [30] ∧
      s.ran ++ s.batch ++ s.pending = s.pushed := by
  intro labels
  have hqueues : (run (step 0) {} labels).map (fun s => (s.ran, s.batch, s.pending)) =
      some ([10], [20], [30]) := by decide
  obtain ⟨s, hs, heq⟩ := Option.map_eq_some_iff.mp hqueues
  simp only [Prod.mk.injEq] at heq
  exact ⟨s, hs, heq.1, heq.2.1, heq.2.2, functors_in_order 0 labels s hs⟩

end TzzeroHttp.EventLoopModel
