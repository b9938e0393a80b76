import TzzeroHttp.LoopProjection

/-! What a `send` from another thread can count on. Its functor shares the loop's queue with those
of all other connections, and it is executed by the second poll at the latest. -/
namespace TzzeroHttp.LoopDelivery
open BufferModel ConnectionInterest ConnectionOutput ConnectionQueue LoopConnections LoopProjection Runs
open ByteText (Bytes)
open ConnectionModel hiding Move step
open EventLoopModel hiding Call ThreadId step Label

/-- The sends of a thread are those of `before`, and behind them those still queued. -/
def Booked (t : ThreadId) (before : List (ThreadId × Bytes)) (x : Traffic) : Prop :=
  ofThread t x.issued = before ++ ofThread t x.queued

variable {c : Config} {w : World} {t : ThreadId} {before : List (ThreadId × Bytes)}

theorem send_booked (ht : t ≠ c.loopThread) (h : Booked t before (traffic w)) (u : ThreadId) (m : Bytes)
    {r : WriteResult} (hr : Harmless r) : Booked t before (traffic (w.send c u m r)) := by
  unfold World.send
  simp only
  split_ifs with hconn hu
  · have hskip : ofThread t [(u, m)] = [] := by
      simp [ofThread, hu, ht.symm]
    rw [traffic_sendInLoop u m hr]
    simpa [Booked, traffic, hskip] using h
  · have hqueued : (traffic (World.queueInLoop (.sendInLoop u m) { w with issued := w.issued ++ [(u, m)] })).queued =
        (traffic w).queued ++ [(u, m)] := by
      simp [traffic, World.queueInLoop, sends]
    unfold Booked
    rw [hqueued, ofThread_append, ← List.append_assoc, ← show ofThread t (traffic w).issued = _ from h,
      ← ofThread_append]
    rfl
  · exact h

theorem doCall_booked (ht : t ≠ c.loopThread) (h : Booked t before (traffic w)) (u : ThreadId) {call : Call}
    (hcall : HarmlessCall call) : Booked t before (traffic (w.doCall c u call)) := by
  cases call with
  | send m r => exact send_booked ht h u m hcall
  | shutdown =>
    rw [World.doCall, traffic_shutdown]
    exact h
  | forceClose =>
    rw [World.doCall, traffic_forceClose]
    exact h
  | retrieve len => exact h

theorem doCalls_booked (ht : t ≠ c.loopThread) (h : Booked t before (traffic w)) {cs : List Call}
    (hcs : ∀ call ∈ cs, HarmlessCall call) : Booked t before (traffic (w.doCalls c cs)) := by
  induction cs generalizing w with
  | nil => exact h
  | cons call cs ih =>
    have hfirst := doCall_booked ht h c.loopThread (hcs call List.mem_cons_self)
    unfold World.doCalls World.andThen
    split_ifs
    · exact hfirst
    · exact ih hfirst fun call' hcall' => hcs call' (List.mem_cons_of_mem call hcall')

theorem dispatch_booked (ht : t ≠ c.loopThread) (h : Booked t before (traffic w)) (e : Events) (r : ReadResult)
    {cs : List Call} (hcs : ∀ call ∈ cs, HarmlessCall call) (r' : WriteResult) :
    Booked t before (traffic (w.dispatch c e r cs r')) := by
  have hread : Booked t before (traffic (if e.read then w.handleRead c r cs else w)) := by
    split_ifs
    · have hinput : Booked t before (traffic { w with input := w.input.readFd r }) := h
      unfold World.handleRead
      simp only
      split
      · rw [traffic_handleClose]
        exact hinput
      · exact doCalls_booked ht hinput hcs
      · rw [World.handleError, traffic_handleClose]
        exact hinput
    · exact h
  unfold World.dispatch
  rw [traffic_dispatchRest]
  exact hread

theorem runFunctor_booked (ht : t ≠ c.loopThread) (h : Booked t before (traffic w)) (f : Functor)
    {r : WriteResult} (hr : Harmless r) {cs : List Call} (hcs : ∀ call ∈ cs, HarmlessCall call) :
    Booked t before (traffic (w.runFunctor c r cs f)) := by
  cases f with
  | sendInLoop u m =>
    rw [World.runFunctor, traffic_sendInLoop u m hr]
    exact h
  | shutdownInLoop =>
    rw [World.runFunctor, traffic_shutdownInLoop]
    exact h
  | forceCloseInLoop =>
    rw [World.runFunctor, traffic_forceCloseInLoop]
    exact h
  | writeComplete => exact doCalls_booked ht h hcs
  | highWaterMark size => exact doCalls_booked ht h hcs
  | connectionDestroyed =>
    rw [World.runFunctor, traffic_connectionDestroyed]
    exact h

variable {ι : Type*} [DecidableEq ι] {cfg : ι → Config} {loopThread : ThreadId} {s s' : Loop ι}

/-- What the other threads have sent on a connection is what has been pushed for it. -/
def Ledger (loopThread : ThreadId) (s : Loop ι) : Prop :=
  ∀ i t, t ≠ loopThread → ofThread t (s.connections i).issued = ofThread t (sends (functorsOf i s.loop.pushed))

/-- An operation under which the sends of the other threads stay booked. -/
def Books (loopThread : ThreadId) (op : World → World) : Prop :=
  ∀ t before w, t ≠ loopThread → Booked t before (traffic w) → Booked t before (traffic (op w))

theorem perform_ledger (h : Ledger loopThread s) (hunqueued : ∀ i, (s.connections i).pending = []) (i : ι)
    {op : World → World} (hop : Local op) (hbooks : Books loopThread op) :
    Ledger loopThread (s.perform i op) := by
  intro j t ht
  by_cases hij : i = j
  · subst hij
    have hstart : Booked t (ofThread t (s.connections i).issued) (traffic (under [] [] (s.connections i))) := by
      simp [Booked, traffic, under, hunqueued i, sends, ofThread]
    have hend := hbooks t _ _ ht hstart
    rw [hop] at hend
    have hissued : ofThread t (op (s.connections i)).issued =
        ofThread t (s.connections i).issued ++ ofThread t (sends (op (s.connections i)).pending) := hend
    simp [Loop.perform, queueAll, hissued, h i t ht]
  · simpa [Loop.perform, queueAll, Function.update_of_ne (Ne.symm hij), hij] using h j t ht

def HarmlessLabel : Label ι → Prop
  | .dispatch _ cs r | .runFunctor r cs => Harmless r ∧ ∀ call ∈ cs, HarmlessCall call
  | .call _ _ call => HarmlessCall call
  | _ => True

theorem step_ledger {l : Label ι} (h : Ledger loopThread s) (hsettled : Settled s) (hl : HarmlessLabel l)
    (hstep : step cfg loopThread s l = some s') : Ledger loopThread s' := by
  cases (step_moved hstep).2 with
  | move m e hrun hpoll hswap he =>
    cases step_steps he with
    | loop m e hidle hmove => cases hmove <;> exact h
  | poll ready e hready he =>
    cases step_steps he with
    | loop m e hidle hmove => cases hmove; exact h
  | dispatch r cs r' i e rest hactive =>
    refine perform_ledger (s := { s with active := rest }) h hsettled.unqueued i (local_dispatch _ e r cs r') ?_
    exact fun t before w ht hw => dispatch_booked ht hw e r hl.2 r'
  | runFunctor r cs entry entries e hbatch he =>
    cases step_steps he with
    | loop m e hidle hmove =>
      cases hmove with
      | runFunctor f fs hp hfirst =>
        cases entry with
        | user task => exact h
        | own i f =>
          refine perform_ledger (s := { s with loop := _ }) h hsettled.unqueued i (local_runFunctor _ r cs f) ?_
          exact fun t before w ht hw => runFunctor_booked ht hw f hl.1 hl.2
  | call u i call hmay =>
    refine perform_ledger h hsettled.unqueued i (local_doCall _ u call) ?_
    exact fun t before w ht hw => doCall_booked ht hw u hl
  | connectionDestroyed i hcallback =>
    refine perform_ledger h hsettled.unqueued i (local_connectionDestroyed _) fun t before w ht hw => ?_
    rw [traffic_connectionDestroyed]
    exact hw
  | removeInLoop u i hu hpos =>
    refine perform_ledger h hsettled.unqueued i local_removeInLoop fun t before w ht hw => ?_
    rw [World.removeConnectionInLoop, traffic_queueInLoop rfl]
    exact hw
  | queue u task hmay =>
    intro i t ht
    simpa [queueAll] using h i t ht
  | quit u e he =>
    cases step_steps he with
    | quit u hidle hcallback => exact h

theorem connectionActs_harmless {i : ι} {l : Label ι} (hl : HarmlessLabel l) {a : Act}
    (ha : a ∈ connectionActs i s l) : HarmlessAct a := by
  cases l with
  | move m => cases m <;> simp [connectionActs] at ha; subst ha; trivial
  | dispatch r cs r' =>
    simp only [connectionActs] at ha
    split at ha
    · split_ifs at ha <;> simp at ha
      subst ha
      exact hl
    · simp at ha
  | runFunctor r cs =>
    simp only [connectionActs] at ha
    split at ha
    · split_ifs at ha <;> simp at ha
      subst ha
      exact hl
    · simp at ha
  | call u j call =>
    simp only [connectionActs] at ha
    split_ifs at ha <;> simp at ha
    subst ha
    exact hl
  | connectionDestroyed j | removeInLoop u j =>
    simp only [connectionActs] at ha
    split_ifs at ha <;> simp at ha
    subst ha
    trivial
  | _ => simp [connectionActs] at ha

theorem run_viewInStep {initial : ι → ℕ} {labels : List (Label ι)} (hlabels : ∀ l ∈ labels, HarmlessLabel l)
    (hrun : run (step cfg loopThread) (.established initial) labels = some s) (i : ι) :
    InStep loopThread (traffic (s.view i)) := by
  have hview := run_view (established_settled initial) hrun i
  have hacts : ∀ a ∈ Simulation.trace (step cfg loopThread) (connectionActs i) (.established initial) labels,
      HarmlessAct a := by
    intro a ha
    obtain ⟨t, l, hl, hmem⟩ := Simulation.mem_trace ha
    exact connectionActs_harmless (hlabels l hl) hmem
  have hstart : InStep (onLoop loopThread (cfg i)).loopThread (traffic (established (initial i))) :=
    established_inStep (initial i)
  exact run_inStep hstart hacts hview

theorem run_ledger {initial : ι → ℕ} {labels : List (Label ι)} (hlabels : ∀ l ∈ labels, HarmlessLabel l)
    (hrun : run (step cfg loopThread) (.established initial) labels = some s) : Ledger loopThread s := by
  have hstep : ∀ (u : Loop ι) l u', (Ledger loopThread u ∧ Settled u) → HarmlessLabel l →
      step cfg loopThread u l = some u' → Ledger loopThread u' ∧ Settled u' :=
    fun u l u' hu hl hs => ⟨step_ledger hu.1 hu.2 hl hs, step_settled hu.2 hs⟩
  have hstart : Ledger loopThread (Loop.established initial) := fun i t ht => rfl
  exact (run_invariant hstep ⟨hstart, established_settled initial⟩ (guarded_of_forall hlabels) hrun).1

/-- What a thread has had executed of its sends are those functors of its that have been run. -/
theorem executed_ran (hledger : Ledger loopThread s) (hsettled : Settled s) {i : ι}
    (hview : InStep loopThread (traffic (s.view i))) (ht : t ≠ loopThread) :
    ofThread t (s.connections i).executed = ofThread t (sends (functorsOf i s.loop.ran)) := by
  have horder : ofThread t (s.connections i).issued = ofThread t (s.connections i).executed ++
      ofThread t (sends (functorsOf i s.loop.batch ++ functorsOf i s.loop.pending)) := by
    have hinOrder := hview.order t
    simpa [traffic, Loop.view, under, hsettled.unqueued i] using hinOrder
  have hpushed := hledger i t ht
  rw [← hsettled.ordered.order, List.append_assoc, functorsOf_append, sends_append, ofThread_append,
    functorsOf_append, horder] at hpushed
  exact List.append_cancel_right hpushed

/-- The poll that a step of the loop begins. -/
def startsPoll : Label ι → Bool
  | .move .startPoll => true
  | _ => false

theorem countP_startPoll (u : Loop ι) (l : Label ι) :
    (loopLabels cfg loopThread u l).countP EventLoopWakeup.isStartPoll = (startsPoll l).toNat := by
  have hcalls : ∀ (t : ThreadId) (entries : List (Entry ι)),
      (queueCalls t entries).countP EventLoopWakeup.isStartPoll = 0 := by
    intro t entries
    refine List.countP_eq_zero.mpr fun m hm => ?_
    simp only [queueCalls, List.mem_flatMap, List.mem_cons, List.not_mem_nil, or_false] at hm
    obtain ⟨x, -, rfl | rfl⟩ := hm <;> exact Bool.false_ne_true
  have hfirst : (firstLabels l).countP EventLoopWakeup.isStartPoll = (startsPoll l).toNat := by
    cases l with
    | move m => cases m <;> rfl
    | _ => rfl
  rw [loopLabels, List.countP_append, hfirst]
  cases step cfg loopThread u l <;> simp [hcalls]

theorem pollReturns_mem {u : Loop ι} {l : Label ι} {r : PollResult}
    (h : .loop (.pollReturns r) ∈ loopLabels cfg loopThread u l) : r = .events ∨ l = .move (.pollReturns r) := by
  rcases List.mem_append.mp h with h | h
  · cases l with
    | move m =>
      simp only [firstLabels, List.mem_singleton, EventLoopModel.Label.loop.injEq] at h
      exact .inr (h ▸ rfl)
    | poll ready =>
      simp only [firstLabels, List.mem_singleton, EventLoopModel.Label.loop.injEq, Move.pollReturns.injEq] at h
      exact .inl h
    | _ => simp [firstLabels] at h
  · cases hs : step cfg loopThread u l with
    | none => simp [hs] at h
    | some u' => simp [hs, queueCalls] at h

/-- On a loop with any number of connections, whatever these do and whatever else is queued: what
another thread has sent on a connection has been executed, in its order, once the loop has begun
two more polls; and what has been executed is on the socket and in the output buffer, whole. -/
theorem sends_delivered (cfg : ι → Config) (loopThread : ThreadId) (initial : ι → ℕ)
    (labels more : List (Label ι)) (s s' : Loop ι)
    (hrun : run (step cfg loopThread) (.established initial) labels = some s)
    (hmore : run (step cfg loopThread) s more = some s')
    (hharmless : ∀ l ∈ labels ++ more, HarmlessLabel l)
    (hcalm : ∀ r, .move (.pollReturns r) ∈ more → r = .events) (hpolls : 2 ≤ more.countP startsPoll)
    (i : ι) (t : ThreadId) (ht : t ≠ loopThread) :
    ofThread t (s.connections i).issued <+: ofThread t (s'.connections i).executed ∧
      wire (s'.connections i).socket ++ (s'.connections i).output.readable =
        ((s'.connections i).executed.map Prod.snd).flatten := by
  have hwhole := run_append.mpr ⟨s, hrun, hmore⟩
  have hsettled := run_settled (established_settled initial) hrun
  have hsettled' := run_settled hsettled hmore
  have hview := run_viewInStep hharmless hwhole i
  have hledger : Ledger loopThread s := run_ledger (fun l hl => hharmless l (by simp [hl])) hrun
  have hexecuted := executed_ran (run_ledger hharmless hwhole) hsettled' hview ht
  have hloop := run_loop hsettled hmore
  have hcounted : EventLoopQuit.Counted s.loop :=
    run_preserves (fun _ _ _ hs hl => EventLoopQuit.step_counted hs hl) EventLoopQuit.initial_counted
      (run_loop (established_settled initial) hrun)
  have hran : s.loop.pushed <+: s'.loop.ran := by
    refine EventLoopWakeup.pushed_ran hcounted hloop (fun r hr => ?_) ?_
    · obtain ⟨u, l, hl, hmem⟩ := Simulation.mem_trace hr
      rcases pollReturns_mem hmem with hevents | heq
      · exact hevents
      · exact hcalm r (heq ▸ hl)
    · rw [Simulation.countP_trace countP_startPoll hmore]
      exact hpolls
  refine ⟨?_, hview.stream⟩
  obtain ⟨rest, hrest⟩ := hran
  rw [hledger i t ht, hexecuted, ← hrest, functorsOf_append, sends_append, ofThread_append]
  exact List.prefix_append _ _

/-- Two connections, one of which sends in its read handler while the other's functor waits. -/
theorem sends_delivered_two :
    let labels : List (Label Bool) := [.move .enter, .move .resetQuit, .move .testQuit,
      .call 1 true (.send [1, 2] (.wrote 0)), .call 2 false (.send [3] (.wrote 0))]
    let more : List (Label Bool) := [.move .startPoll, .poll [(false, { read := true })],
      .dispatch (.received [9]) [.send [7] (.wrote 1)] (.wrote 0), .move .swap, .runFunctor (.wrote 1) [],
      .runFunctor (.wrote 1) [], .move .endBatch, .move .testQuit, .move .startPoll]
    ∃ s s', run (step (fun _ => {}) 0) (.established fun _ => 4) labels = some s ∧
      run (step (fun _ => {}) 0) s more = some s' ∧
      ofThread 1 (s.connections true).issued <+: ofThread 1 (s'.connections true).executed := by
  intro labels more
  obtain ⟨s', hs'⟩ := Option.isSome_iff_exists.mp
    (show (run (step (fun _ => {}) 0) (.established fun _ => 4) (labels ++ more)).isSome by decide)
  obtain ⟨s, hs, hmore⟩ := run_append.mp hs'
  have hharmless : ∀ l ∈ labels ++ more, HarmlessLabel l := by
    simp [labels, more, HarmlessLabel, HarmlessCall, Harmless]
  have hcalm : ∀ r, .move (.pollReturns r) ∈ more → r = .events := by simp [more]
  exact ⟨s, s', hs, hmore, (sends_delivered (fun _ => {}) 0 (fun _ => 4) labels more s s' hs hmore hharmless
    hcalm (by decide) true 1 (by decide)).1⟩

end TzzeroHttp.LoopDelivery
