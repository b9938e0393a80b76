import TzzeroHttp.EventLoopWakeup
import TzzeroHttp.LoopConnections
import TzzeroHttp.ConnectionOutput

/-! What the connections of one loop have to do with each other: nothing but the order of their
functors and events. Every run of the loop is a run of the event loop alone, and for each
connection a run of that connection alone. -/
namespace TzzeroHttp.LoopProjection
open BufferModel ConnectionInterest ConnectionQueue LoopConnections Runs
open ConnectionModel hiding Move step
open EventLoopModel hiding Call ThreadId step Label

variable {ι : Type*} [DecidableEq ι] {cfg : ι → Config} {loopThread : ThreadId} {s s' : Loop ι}

omit [DecidableEq ι] in
theorem queueAll_ordered {e : EventLoop (Entry ι)} (h : Ordered e) (entries : List (Entry ι)) :
    Ordered (queueAll e entries) where
  batch hp := h.batch hp
  order := by
    have horder := h.order
    simp [queueAll, ← horder]

structure Settled (s : Loop ι) : Prop where
  ordered : Ordered s.loop
  returned : s.loop.inFlight = []
  unqueued : ∀ i, (s.connections i).pending = []
  active : s.active ≠ [] → s.loop.point = .dispatching
  caught : ∀ i, (s.connections i).thrown.isSome → s.uncaught = true

omit [DecidableEq ι] in
theorem established_settled (initial : ι → ℕ) : Settled (Loop.established initial) where
  ordered := initial_ordered
  returned := rfl
  unqueued i := rfl
  active h := absurd rfl h
  caught i h := by simp [Loop.established, established, World.connectionEstablished, World.addFd] at h

theorem perform_settled (h : Settled s) (hcaught : s.uncaught = false) (i : ι) (op : World → World) :
    Settled (s.perform i op) where
  ordered := queueAll_ordered h.ordered _
  returned := h.returned
  unqueued j := by
    by_cases hj : j = i
    · simp [Loop.perform, hj]
    · simpa [Loop.perform, Function.update_of_ne hj] using h.unqueued j
  active := h.active
  caught j hj := by
    by_cases hij : j = i
    · simpa [Loop.perform, hij] using hj
    · have hthrown := h.caught j (by simpa [Loop.perform, Function.update_of_ne hij] using hj)
      rw [hcaught] at hthrown
      cases hthrown

omit [DecidableEq ι] in
theorem move_settled (h : Settled s) {m : Move} {e : EventLoop (Entry ι)} {active : List (ι × Events)}
    (hstep : EventLoopModel.step loopThread s.loop (.loop m) = some e)
    (hactive : active ≠ [] → e.point = .dispatching) :
    Settled { s with loop := e, active := active } where
  ordered := step_ordered h.ordered hstep
  returned := by
    cases step_steps hstep with
    | loop m e hidle hmove => rw [moves_inFlight hmove, h.returned]
  unqueued := h.unqueued
  active := hactive
  caught := h.caught

theorem step_settled {l : Label ι} (h : Settled s) (hstep : step cfg loopThread s l = some s') : Settled s' := by
  obtain ⟨hcaught, hmoved⟩ := step_moved hstep
  cases hmoved with
  | move m e hrun hpoll hswap he =>
    refine move_settled h he fun hne => ?_
    cases step_steps he with
    | loop m e hidle hmove =>
      have hp := h.active hne
      cases hmove with
      | swap hpoint => exact absurd (hswap rfl) hne
      | _ => simp_all
  | poll ready e hready he =>
    refine move_settled h he fun _ => ?_
    cases step_steps he with
    | loop m e hidle hmove => cases hmove; rfl
  | dispatch r cs r' i e rest hactive =>
    have hrest : Settled { s with active := rest } :=
      ⟨h.ordered, h.returned, h.unqueued, fun _ => h.active (by simp [hactive]), h.caught⟩
    exact perform_settled hrest hcaught i _
  | runFunctor r cs entry entries e hbatch he =>
    have hnext : Settled { s with loop := e } := by
      refine move_settled h he fun hne => ?_
      have hp := h.active hne
      have hempty := h.ordered.batch (by simp [hp])
      simp [hempty] at hbatch
    cases entry with
    | own i f => exact perform_settled hnext hcaught i fun w => w.runFunctor (onLoop loopThread (cfg i)) r cs f
    | user task => exact hnext
  | call t i c hmay => exact perform_settled h hcaught i _
  | connectionDestroyed i hcallback => exact perform_settled h hcaught i _
  | removeInLoop t i ht hpos => exact perform_settled h hcaught i _
  | queue t task hmay =>
    exact ⟨queueAll_ordered h.ordered _, h.returned, h.unqueued, h.active, h.caught⟩
  | quit t e he =>
    cases step_steps he with
    | quit t hidle hcallback => exact ⟨⟨h.ordered.batch, h.ordered.order⟩, h.returned, h.unqueued, h.active, h.caught⟩

@[simp] theorem functorsOf_nil (i : ι) : functorsOf i [] = [] := rfl

@[simp] theorem functorsOf_append (i : ι) (a b : List (Entry ι)) :
    functorsOf i (a ++ b) = functorsOf i a ++ functorsOf i b := by
  simp [functorsOf]

@[simp] theorem functorsOf_user (i : ι) (task : ℕ) (entries : List (Entry ι)) :
    functorsOf i (.user task :: entries) = functorsOf i entries := rfl

@[simp] theorem functorsOf_own (i j : ι) (f : Functor) (entries : List (Entry ι)) :
    functorsOf i (.own j f :: entries) = if j = i then f :: functorsOf i entries else functorsOf i entries := by
  unfold functorsOf
  by_cases hj : j = i <;> simp [hj]

@[simp] theorem functorsOf_map (i j : ι) (fs : List Functor) :
    functorsOf i (fs.map (.own j)) = if j = i then fs else [] := by
  induction fs with
  | nil => simp
  | cons f fs ih =>
    rw [List.map_cons, functorsOf_own, ih]
    split_ifs <;> rfl

theorem perform_view (i : ι) {op : World → World} (hop : Local op) : (s.perform i op).view i = op (s.view i) := by
  rw [Loop.view, Loop.view, hop]
  simp [Loop.perform, queueAll, under]

theorem perform_view_other {i j : ι} (hij : i ≠ j) (op : World → World) : (s.perform i op).view j = s.view j := by
  simp [Loop.view, Loop.perform, queueAll, Function.update_of_ne hij.symm, hij]

/-- The moves of one connection that match a step of the loop. -/
def connectionActs (i : ι) (s : Loop ι) : Label ι → List Act
  | .move .swap => [.swapFunctors]
  | .dispatch r cs r' =>
    match s.active with
    | (j, e) :: _ => if j = i then [.dispatch e r cs r'] else []
    | [] => []
  | .runFunctor r cs =>
    match s.loop.batch with
    | .own j _ :: _ => if j = i then [.runFunctor r cs] else []
    | _ => []
  | .call t j c => if j = i then [.call t c] else []
  | .connectionDestroyed j => if j = i then [.connectionDestroyed] else []
  | .removeInLoop _ j => if j = i then [.removeInLoop] else []
  | _ => []

omit [DecidableEq ι] in
theorem Settled.thrown_none (h : Settled s) (hcaught : s.uncaught = false) (i : ι) :
    (s.connections i).thrown = none := by
  by_contra hne
  have hthrown := h.caught i (Option.ne_none_iff_isSome.mp hne)
  rw [hcaught] at hthrown
  cases hthrown

/-- A step that performs an operation of connection `j` is matched by a move of connection `i` when
it is the same connection, and otherwise by nothing. -/
theorem perform_matched {i j : ι} {op : World → World} (hop : Local op) {a : Act}
    (hself : j = i → stepAny (onLoop loopThread (cfg i)) (s.view i) a = some (op (s.view i))) :
    run (stepAny (onLoop loopThread (cfg i))) (s.view i) (if j = i then [a] else []) =
      some ((s.perform j op).view i) := by
  by_cases hij : j = i
  · rw [if_pos hij, ← hij, perform_view j hop]
    exact run_cons.mpr ⟨_, hij ▸ hself hij, rfl⟩
  · rw [if_neg hij, perform_view_other hij op]
    rfl

theorem move_view {m : Move} {e : EventLoop (Entry ι)} (hm : m ≠ .swap) (hrun : m ≠ .runFunctor)
    (he : EventLoopModel.step loopThread s.loop (.loop m) = some e) (active : List (ι × Events)) (i : ι) :
    Loop.view { s with loop := e, active := active } i = s.view i := by
  cases step_steps he with
  | loop m e hidle hmove =>
    cases hmove with
    | swap hp => exact absurd rfl hm
    | runFunctor f fs hp hbatch => exact absurd rfl hrun
    | _ => rfl

theorem step_view {l : Label ι} (h : Settled s) (hstep : step cfg loopThread s l = some s') (i : ι) :
    run (stepAny (onLoop loopThread (cfg i))) (s.view i) (connectionActs i s l) = some (s'.view i) := by
  obtain ⟨hcaught, hmoved⟩ := step_moved hstep
  have hthrown : ∀ j, (s.view j).thrown = none := h.thrown_none hcaught
  cases hmoved with
  | move m e hrun hpoll hswap he =>
    by_cases hm : m = .swap
    · subst hm
      cases step_steps he with
      | loop m e hidle hmove =>
        cases hmove with
        | swap hp =>
          have hbatch : (s.view i).batch = [] := by
            simp [Loop.view, under, h.ordered.batch (by simp [hp])]
          refine run_cons.mpr ⟨{ s.view i with batch := (s.view i).pending, pending := [] }, ?_, ?_⟩
          · simp [stepAny, ConnectionModel.step, hthrown i, hbatch]
          · simp [run, Loop.view, under, h.unqueued i]
    · rw [move_view hm hrun he]
      cases m <;> first | rfl | exact absurd rfl hm
  | poll ready e hready he => rw [move_view (by simp) (by simp) he]; rfl
  | dispatch r cs r' j e rest hactive =>
    have hbatch : (s.view i).batch = [] := by
      have hp := h.active (by simp [hactive])
      simp [Loop.view, under, h.ordered.batch (by simp [hp])]
    simp only [connectionActs, hactive]
    refine perform_matched (s := { s with active := rest }) (local_dispatch _ e r cs r') fun hij => ?_
    subst hij
    exact if_pos ⟨hthrown j, hbatch⟩
  | runFunctor r cs entry entries e hbatch he =>
    cases step_steps he with
    | loop m e hidle hmove =>
      cases hmove with
      | runFunctor f fs hp hfirst =>
        obtain ⟨rfl, rfl⟩ := List.cons.inj (hfirst.symm.trans hbatch)
        cases f with
        | user task =>
          simp only [connectionActs, hbatch, run, Loop.runEntry, Loop.view, functorsOf_user]
        | own j f =>
          simp only [connectionActs, hbatch, Loop.runEntry]
          by_cases hij : j = i
          · subst hij
            rw [if_pos rfl, perform_view j (local_runFunctor _ r cs f)]
            have hfront : (s.view j).batch = f :: functorsOf j fs := by
              simp [Loop.view, under, hbatch]
            refine run_cons.mpr ⟨_, ?_, rfl⟩
            have hwhole : ¬ (s.view j).thrown.isSome := by simp [hthrown j]
            simp only [stepAny, ConnectionModel.step, if_neg hwhole, hfront]
            rfl
          · rw [if_neg hij, perform_view_other hij]
            simp [run, Loop.view, hbatch, hij]
  | call t j c hmay =>
    refine perform_matched (local_doCall _ t c) fun hij => ?_
    subst hij
    simp [stepAny, ConnectionModel.step, hthrown]
  | connectionDestroyed j hcallback =>
    refine perform_matched (local_connectionDestroyed _) fun hij => ?_
    subst hij
    simp [stepAny, ConnectionModel.step, hthrown]
  | removeInLoop t j ht hpos =>
    refine perform_matched local_removeInLoop fun hij => ?_
    subst hij
    have hremovals : 0 < (s.view j).removals := hpos
    simp [stepAny, ConnectionModel.step, hthrown, hremovals]
  | queue t task hmay => simp [connectionActs, run, Loop.view, queueAll]
  | quit t e he =>
    cases step_steps he with
    | quit t hidle hcallback => rfl

def queueCalls (t : ThreadId) (entries : List (Entry ι)) : List (EventLoopModel.Label (Entry ι)) :=
  entries.flatMap fun x => [.call t (.queue x), .call t .queued]

omit [DecidableEq ι] in
theorem run_queueCalls {e : EventLoop (Entry ι)} {t : ThreadId} (hreturned : e.inFlight = [])
    (hmay : t = loopThread → e.point.inCallback = true) (entries : List (Entry ι)) :
    run (EventLoopModel.step loopThread) e (queueCalls t entries) = some (queueAll e entries) := by
  induction entries generalizing e with
  | nil => simp [queueCalls, run, queueAll]
  | cons x entries ih =>
    have hfree : ¬ (e.Busy t ∨ (t = loopThread ∧ e.point.inCallback = false)) := by
      rintro (hbusy | ⟨ht, hp⟩)
      · simp [EventLoop.Busy, hreturned] at hbusy
      · simp [hmay ht] at hp
    have hqueue : EventLoopModel.step loopThread e (.call t (.queue x)) = some (e.queueInLoop t x) := if_neg hfree
    have hqueued : EventLoopModel.step loopThread (e.queueInLoop t x) (.call t .queued) =
        some (queueAll e [x]) := by
      simp [EventLoopModel.step, EventLoop.queueReturns, EventLoop.queueInLoop, queueAll, hreturned]
    have hrest := ih (e := queueAll e [x]) hreturned hmay
    refine run_cons.mpr ⟨_, hqueue, run_cons.mpr ⟨_, hqueued, ?_⟩⟩
    refine hrest.trans ?_
    simp [queueAll, List.range'_succ]

/-- Who makes the calls of a step. -/
def caller (loopThread : ThreadId) : Label ι → ThreadId
  | .call t _ _ | .removeInLoop t _ | .queue t _ | .quit t => t
  | _ => loopThread

def firstLabels : Label ι → List (EventLoopModel.Label (Entry ι))
  | .move m => [.loop m]
  | .poll _ => [.loop (.pollReturns .events)]
  | .runFunctor _ _ => [.loop .runFunctor]
  | .quit t => [.call t .quit]
  | _ => []

/-- The steps of the event loop that match a step, up to the calls for what has been pushed. -/
def loopLabels (cfg : ι → Config) (loopThread : ThreadId) (s : Loop ι) (l : Label ι) :
    List (EventLoopModel.Label (Entry ι)) :=
  firstLabels l ++ (step cfg loopThread s l).elim [] fun s' =>
    queueCalls (caller loopThread l) (s'.loop.pushed.drop s.loop.pushed.length)

theorem run_perform {t : ThreadId} (hreturned : s.loop.inFlight = []) (hmay : MayCall loopThread s t) (i : ι)
    (op : World → World) :
    run (EventLoopModel.step loopThread) s.loop
      (queueCalls t ((s.perform i op).loop.pushed.drop s.loop.pushed.length)) = some (s.perform i op).loop := by
  have hpushed : (s.perform i op).loop.pushed.drop s.loop.pushed.length =
      (op (s.connections i)).pending.map (.own i) := by
    simp [Loop.perform, queueAll]
  rw [hpushed]
  exact run_queueCalls hreturned hmay _

theorem step_loop {l : Label ι} (h : Settled s) (hstep : step cfg loopThread s l = some s') :
    run (EventLoopModel.step loopThread) s.loop (loopLabels cfg loopThread s l) = some s'.loop := by
  have hnone : ∀ (m : EventLoopModel.Label (Entry ι)) e, EventLoopModel.step loopThread s.loop m = some e →
      e.pushed = s.loop.pushed → run (EventLoopModel.step loopThread) s.loop
        ([m] ++ queueCalls (caller loopThread l) (e.pushed.drop s.loop.pushed.length)) = some e := by
    intro m e he hpushed
    rw [hpushed, List.drop_length]
    exact run_cons.mpr ⟨e, he, rfl⟩
  simp only [loopLabels, hstep, Option.elim_some]
  obtain ⟨hcaught, hmoved⟩ := step_moved hstep
  cases hmoved with
  | move m e hrun hpoll hswap he =>
    refine hnone (.loop m) e he ?_
    cases step_steps he with
    | loop m e hidle hmove => cases hmove <;> rfl
  | poll ready e hready he =>
    refine hnone _ e he ?_
    cases step_steps he with
    | loop m e hidle hmove => cases hmove; rfl
  | dispatch r cs r' i e rest hactive =>
    have hp := h.active (by simp [hactive])
    exact run_perform (s := { s with active := rest }) h.returned (fun _ => by simp [hp, Point.inCallback]) i _
  | runFunctor r cs entry entries e hbatch he =>
    cases step_steps he with
    | loop m e hidle hmove =>
      cases hmove with
      | runFunctor f fs hp hfirst =>
        refine run_cons.mpr ⟨_, he, ?_⟩
        obtain ⟨rfl, rfl⟩ := List.cons.inj (hfirst.symm.trans hbatch)
        cases f with
        | user task => simp [Loop.runEntry, queueCalls, run]
        | own i f =>
          refine run_perform (s := { s with loop := { s.loop with batch := fs, ran := s.loop.ran ++ [.own i f] } })
            h.returned (fun _ => ?_) i _
          show s.loop.point.inCallback = true
          simp [hp, Point.inCallback]
  | call t i c hmay => exact run_perform h.returned hmay i _
  | connectionDestroyed i hcallback => exact run_perform h.returned (fun _ => hcallback) i _
  | removeInLoop t i ht hpos => exact run_perform h.returned (fun heq => absurd heq ht) i _
  | queue t task hmay =>
    simp only [firstLabels, queueAll, List.drop_left, List.nil_append, caller]
    exact run_queueCalls h.returned hmay [.user task]
  | quit t e he =>
    refine hnone _ e he ?_
    cases step_steps he with
    | quit t hidle hcallback => rfl

theorem run_settled {labels : List (Label ι)} (h : Settled s) (hrun : run (step cfg loopThread) s labels = some s') :
    Settled s' :=
  run_preserves (fun _ _ _ => step_settled) h hrun

theorem run_view {labels : List (Label ι)} (h : Settled s) (hrun : run (step cfg loopThread) s labels = some s')
    (i : ι) :
    run (stepAny (onLoop loopThread (cfg i))) (s.view i)
      (Simulation.trace (step cfg loopThread) (connectionActs i) s labels) = some (s'.view i) := by
  have hstep : ∀ (t : Loop ι) (w : World) l t', (Settled t ∧ t.view i = w) → step cfg loopThread t l = some t' →
      ∃ w', run (stepAny (onLoop loopThread (cfg i))) w (connectionActs i t l) = some w' ∧
        (Settled t' ∧ t'.view i = w') := by
    rintro t w l t' ⟨ht, rfl⟩ hl
    exact ⟨t'.view i, step_view ht hl i, step_settled ht hl, rfl⟩
  obtain ⟨w, hw, -, rfl⟩ := Simulation.run_simulates hstep ⟨h, rfl⟩ hrun
  exact hw

theorem run_loop {labels : List (Label ι)} (h : Settled s) (hrun : run (step cfg loopThread) s labels = some s') :
    run (EventLoopModel.step loopThread) s.loop
      (Simulation.trace (step cfg loopThread) (loopLabels cfg loopThread) s labels) = some s'.loop := by
  have hstep : ∀ (t : Loop ι) (e : EventLoop (Entry ι)) l t', (Settled t ∧ t.loop = e) →
      step cfg loopThread t l = some t' →
      ∃ e', run (EventLoopModel.step loopThread) e (loopLabels cfg loopThread t l) = some e' ∧
        (Settled t' ∧ t'.loop = e') := by
    rintro t e l t' ⟨ht, rfl⟩ hl
    exact ⟨t'.loop, step_loop ht hl, step_settled ht hl, rfl⟩
  obtain ⟨e, he, -, rfl⟩ := Simulation.run_simulates hstep ⟨h, rfl⟩ hrun
  exact he

/-- Connections on one loop, with a common functor queue, a common batch of events and whatever
else is queued: every run is a run of the event loop alone, and for each connection a run of that
connection alone with its own share of the queue. -/
theorem shared_loop (cfg : ι → Config) (loopThread : ThreadId) (initial : ι → ℕ) (labels : List (Label ι))
    (s : Loop ι) (hrun : run (step cfg loopThread) (.established initial) labels = some s) :
    run (EventLoopModel.step loopThread) {} (Simulation.trace (step cfg loopThread)
      (loopLabels cfg loopThread) (.established initial) labels) = some s.loop ∧
    ∀ i, run (stepAny (onLoop loopThread (cfg i))) (established (initial i)) (Simulation.trace
      (step cfg loopThread) (connectionActs i) (.established initial) labels) = some (s.view i) :=
  ⟨run_loop (established_settled initial) hrun, run_view (established_settled initial) hrun⟩

/-- Two threads send on two connections; the handler of the second is called first. -/
theorem shared_loop_two :
    let labels : List (Label Bool) := [.move .enter, .move .resetQuit, .move .testQuit, .move .startPoll,
      .call 1 true (.send [1, 2] (.wrote 0)), .call 2 false (.send [3] (.wrote 0)),
      .poll [(false, { read := true })], .dispatch (.received [9]) [.send [7] (.wrote 1)] (.wrote 0),
      .move .swap, .runFunctor (.wrote 1) [], .runFunctor (.wrote 1) []]
    ∃ s, run (step (fun _ => {}) 0) (.established fun _ => 4) labels = some s ∧
      (s.connections true).socket = [.wrote [1]] ∧
      ∀ i, run (stepAny (onLoop 0 {})) (established 4) (Simulation.trace (step (fun _ => {}) 0)
        (connectionActs i) (.established fun _ => 4) labels) = some (s.view i) := by
  intro labels
  have hend : (run (step (fun _ => {}) 0) (.established fun _ => 4) labels).map
      (fun s => (s.connections true).socket) = some [.wrote [1]] := by decide
  obtain ⟨s, hs, hsocket⟩ := Option.map_eq_some_iff.mp hend
  exact ⟨s, hs, hsocket, (shared_loop (fun _ => {}) 0 (fun _ => 4) labels s hs).2⟩

end TzzeroHttp.LoopProjection
