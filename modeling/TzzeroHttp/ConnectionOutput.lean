import TzzeroHttp.ConnectionInterest
import TzzeroHttp.Simulation

/-! The output path of a connection. `Traffic` is what a connection has been asked to send
and how far it has come: the calls accepted, the sends executed, the ones still queued, and
the bytes that are on the socket or in the output buffer. -/
namespace TzzeroHttp.ConnectionOutput
open ByteText BufferModel ConnectionModel Runs
open ConnectionInterest (stepAny stepAny_cases)
open BufferQueue (ByteBuffer)

def wire (events : List SocketEvent) : Bytes :=
  events.flatMap fun
    | .wrote data => data
    | .shutWr => []

def sends (fs : List Functor) : List (ThreadId × Bytes) :=
  fs.filterMap fun
    | .sendInLoop t m => some (t, m)
    | _ => none

structure Traffic where
  stream : Bytes
  issued : List (ThreadId × Bytes)
  executed : List (ThreadId × Bytes)
  queued : List (ThreadId × Bytes)

def traffic (w : World) : Traffic :=
  ⟨wire w.socket ++ w.output.readable, w.issued, w.executed, sends (w.batch ++ w.pending)⟩

def ofThread (t : ThreadId) (ms : List (ThreadId × Bytes)) : List (ThreadId × Bytes) :=
  ms.filter (·.1 = t)

/-- The stream is whole messages in the order of execution, every thread's calls are
executed or queued in its own order, and the loop thread queues nothing. -/
structure InStep (loop : ThreadId) (x : Traffic) : Prop where
  stream : x.stream = (x.executed.map Prod.snd).flatten
  order : ∀ t, ofThread t x.issued = ofThread t x.executed ++ ofThread t x.queued
  offLoop : ∀ m ∈ x.queued, m.1 ≠ loop

@[simp] theorem wire_append (a b : List SocketEvent) : wire (a ++ b) = wire a ++ wire b := by
  simp [wire]

@[simp] theorem wire_wrote (data : Bytes) : wire [.wrote data] = data := by
  simp [wire]

@[simp] theorem wire_shutWr : wire [.shutWr] = [] := rfl

@[simp] theorem sends_append (a b : List Functor) : sends (a ++ b) = sends a ++ sends b := by
  simp [sends]

@[simp] theorem ofThread_append (t : ThreadId) (a b : List (ThreadId × Bytes)) :
    ofThread t (a ++ b) = ofThread t a ++ ofThread t b := by
  simp [ofThread]

variable {cfg : Config} {w : World}

@[simp] theorem traffic_modifyFd (e : Events) : traffic (w.modifyFd e) = traffic w := by
  unfold World.modifyFd
  cases w.interest <;> rfl

@[simp] theorem traffic_removeFd : traffic w.removeFd = traffic w := by
  unfold World.removeFd
  cases w.interest <;> rfl

theorem traffic_queueInLoop {f : Functor} (hf : sends [f] = []) :
    traffic (w.queueInLoop f) = traffic w := by
  simp [traffic, World.queueInLoop, hf]

theorem traffic_andThen {f : World → World} (h : traffic (f w) = traffic w) :
    traffic (w.andThen f) = traffic w := by
  unfold World.andThen
  split_ifs
  · rfl
  · exact h

theorem traffic_closeCallback : traffic (w.closeCallback cfg) = traffic w := by
  unfold World.closeCallback
  cases cfg.closeCallback with
  | none => rfl
  | sameLoop => exact traffic_queueInLoop rfl
  | otherLoop => rfl

theorem traffic_handleClose : traffic (w.handleClose cfg) = traffic w := by
  unfold World.handleClose
  rw [traffic_andThen traffic_closeCallback, traffic_removeFd]
  rfl

theorem traffic_connectionDestroyed : traffic (w.connectionDestroyed cfg) = traffic w := by
  unfold World.connectionDestroyed
  split_ifs
  · rw [traffic_andThen traffic_closeCallback, traffic_removeFd]
    rfl
  · rfl

theorem traffic_shutdownInLoop : traffic w.shutdownInLoop = traffic w := by
  unfold World.shutdownInLoop
  split_ifs <;> simp [traffic]

theorem traffic_forceCloseInLoop : traffic (w.forceCloseInLoop cfg) = traffic w := by
  unfold World.forceCloseInLoop
  split_ifs
  · exact traffic_handleClose
  · rfl

theorem traffic_shutdown (t : ThreadId) : traffic (w.shutdown cfg t) = traffic w := by
  unfold World.shutdown
  simp only
  split_ifs
  · exact traffic_shutdownInLoop
  · exact traffic_queueInLoop rfl
  · rfl

theorem traffic_forceClose (t : ThreadId) : traffic (w.forceClose cfg t) = traffic w := by
  unfold World.forceClose
  simp only
  split_ifs
  · exact traffic_forceCloseInLoop
  · exact traffic_queueInLoop rfl
  · rfl

theorem traffic_bufferRemaining (data : Bytes) : traffic (w.bufferRemaining cfg data) =
    { traffic w with stream := (traffic w).stream ++ data } := by
  unfold World.bufferRemaining
  by_cases hdata : data = []
  · simp [hdata]
  · simp only [if_neg hdata, traffic_modifyFd]
    split_ifs <;> simp [traffic, World.queueInLoop, sends]

/-- A write answer that does not make `send_in_loop` drop the message. -/
def Harmless (r : WriteResult) : Prop := r ≠ .failed .brokenPipe ∧ r ≠ .failed .connectionReset

/-- However it goes out, a send adds its whole message to the stream. -/
theorem traffic_sendInLoop (t : ThreadId) (m : Bytes) {r : WriteResult} (hr : Harmless r) :
    traffic (w.sendInLoop cfg t m r) =
      { traffic w with
        stream := (traffic w).stream ++ m, executed := (traffic w).executed ++ [(t, m)] } := by
  unfold World.sendInLoop
  simp only
  split_ifs with hdirect
  · have hempty : w.output.readable = [] := by simpa using hdirect.2
    cases r with
    | wrote n =>
      simp only [traffic_bufferRemaining]
      split_ifs
      · rw [traffic_queueInLoop rfl]
        simp [traffic, hempty]
      · simp [traffic, hempty]
    | failed e =>
      have hkeep : ¬ (e = .brokenPipe ∨ e = .connectionReset) := by
        rintro (rfl | rfl)
        · exact hr.1 rfl
        · exact hr.2 rfl
      simp only [if_neg hkeep, traffic_bufferRemaining]
      rfl
  · rw [traffic_bufferRemaining]
    rfl

theorem traffic_outputDrained : traffic (w.outputDrained cfg) = traffic w := by
  unfold World.outputDrained
  rw [traffic_andThen, traffic_modifyFd]
  simp only
  split_ifs
  · rw [traffic_shutdownInLoop, traffic_queueInLoop rfl]
  · rw [traffic_queueInLoop rfl]
  · exact traffic_shutdownInLoop
  · rfl

theorem traffic_handleWrite (r : WriteResult) : traffic (w.handleWrite cfg r) = traffic w := by
  have hmove : ∀ n, wire (w.socket ++ [.wrote (w.output.readable.take n)]) ++
      (w.output.writeFd (.wrote (w.output.readable.take n).length)).readable =
        wire w.socket ++ w.output.readable := by
    intro n
    simp only [wire_append, wire_wrote, ByteBuffer.writeFd, ByteBuffer.readable_retrieve,
      List.append_assoc]
    rw [List.prefix_iff_eq_append.mp (List.take_prefix n w.output.readable)]
  unfold World.handleWrite
  split_ifs
  · cases r with
    | failed e => rfl
    | wrote n =>
      simp only
      split_ifs
      · rfl
      · rw [traffic_outputDrained]
        simp only [traffic, hmove]
      · simp only [traffic, hmove]
  · rfl

theorem InStep.execute {loop : ThreadId} {x : Traffic} {t : ThreadId} {m : Bytes}
    (h : InStep loop { x with queued := (t, m) :: x.queued }) :
    InStep loop { x with stream := x.stream ++ m, executed := x.executed ++ [(t, m)] } where
  stream := by simp [show x.stream = _ from h.stream]
  order u := by
    rw [ofThread_append, List.append_assoc, ← ofThread_append]
    exact h.order u
  offLoop y hy := h.offLoop y (by simp [hy])

theorem InStep.submit {loop : ThreadId} {x : Traffic} {t : ThreadId} (ht : t ≠ loop) {m : Bytes}
    (h : InStep loop x) :
    InStep loop { x with issued := x.issued ++ [(t, m)], queued := x.queued ++ [(t, m)] } where
  stream := h.stream
  order u := by simp [h.order u]
  offLoop y hy := by
    rcases List.mem_append.mp hy with hy | hy
    · exact h.offLoop y hy
    · rw [List.mem_singleton.mp hy]
      exact ht

/-- The loop thread's own send overtakes nothing of its own, since it never queues. -/
theorem InStep.sendNow {loop : ThreadId} {x : Traffic} {m : Bytes} (h : InStep loop x) :
    InStep loop { x with stream := x.stream ++ m, issued := x.issued ++ [(loop, m)],
                         executed := x.executed ++ [(loop, m)] } where
  stream := by simp [h.stream]
  order u := by
    have ho := h.order u
    by_cases hu : u = loop
    · have hnone : ofThread u x.queued = [] := by
        simpa [ofThread, hu] using h.offLoop
      simp [ho, hnone]
    · have hskip : ofThread u [(loop, m)] = [] := by
        simp [ofThread, Ne.symm hu]
      simp [ho, hskip]
  offLoop := h.offLoop

theorem send_inStep (h : InStep cfg.loopThread (traffic w)) (t : ThreadId) (m : Bytes)
    {r : WriteResult} (hr : Harmless r) :
    InStep cfg.loopThread (traffic (w.send cfg t m r)) := by
  unfold World.send
  simp only
  split_ifs with hconn ht
  · rw [traffic_sendInLoop t m hr, ht]
    exact h.sendNow
  · have hsubmit := h.submit ht (m := m)
    simpa [traffic, World.queueInLoop, sends] using hsubmit
  · exact h

def HarmlessCall : Call → Prop
  | .send _ r => Harmless r
  | _ => True

theorem doCall_inStep (h : InStep cfg.loopThread (traffic w)) (t : ThreadId) {c : Call}
    (hc : HarmlessCall c) : InStep cfg.loopThread (traffic (w.doCall cfg t c)) := by
  cases c with
  | send m r => exact send_inStep h t m hc
  | shutdown =>
    rw [World.doCall, traffic_shutdown]
    exact h
  | forceClose =>
    rw [World.doCall, traffic_forceClose]
    exact h
  | retrieve len => exact h

theorem doCalls_inStep (h : InStep cfg.loopThread (traffic w)) {cs : List Call}
    (hcs : ∀ c ∈ cs, HarmlessCall c) : InStep cfg.loopThread (traffic (w.doCalls cfg cs)) := by
  induction cs generalizing w with
  | nil => exact h
  | cons c cs ih =>
    have hc := doCall_inStep h cfg.loopThread (hcs c (by simp))
    unfold World.doCalls World.andThen
    split_ifs
    · exact hc
    · exact ih hc fun c hc => hcs c (by simp [hc])

theorem handleRead_inStep (h : InStep cfg.loopThread (traffic w)) (r : ReadResult) {cs : List Call}
    (hcs : ∀ c ∈ cs, HarmlessCall c) :
    InStep cfg.loopThread (traffic (w.handleRead cfg r cs)) := by
  have hinput : InStep cfg.loopThread (traffic { w with input := w.input.readFd r }) := h
  unfold World.handleRead
  simp only
  split
  · rw [traffic_handleClose]
    exact hinput
  · exact doCalls_inStep hinput hcs
  · rw [World.handleError, traffic_handleClose]
    exact hinput

theorem traffic_dispatchRest (e : Events) (r : WriteResult) (v : World) :
    traffic ((v.andThen fun u => if e.write then u.handleWrite cfg r else u).andThen fun u =>
      if e.error then u.handleError cfg else u) = traffic v := by
  have herror : ∀ x : World, traffic (if e.error then x.handleError cfg else x) = traffic x := by
    intro x
    split_ifs
    · exact traffic_handleClose
    · rfl
  have hwrite : traffic (if e.write then v.handleWrite cfg r else v) = traffic v := by
    split_ifs
    · exact traffic_handleWrite r
    · rfl
  exact (traffic_andThen (herror _)).trans (traffic_andThen hwrite)

theorem dispatch_inStep (h : InStep cfg.loopThread (traffic w)) (e : Events) (r : ReadResult)
    {cs : List Call} (hcs : ∀ c ∈ cs, HarmlessCall c) (r' : WriteResult) :
    InStep cfg.loopThread (traffic (w.dispatch cfg e r cs r')) := by
  have hread : InStep cfg.loopThread (traffic (if e.read then w.handleRead cfg r cs else w)) := by
    split_ifs
    · exact handleRead_inStep h r hcs
    · exact h
  unfold World.dispatch
  rw [traffic_dispatchRest]
  exact hread

/-- No write in the move fails with EPIPE or ECONNRESET. -/
def HarmlessAct : Act → Prop
  | .call _ c => HarmlessCall c
  | .runFunctor r cs => Harmless r ∧ ∀ c ∈ cs, HarmlessCall c
  | .dispatch _ _ cs r => Harmless r ∧ ∀ c ∈ cs, HarmlessCall c
  | _ => True

theorem runFunctor_inStep {f : Functor} {fs : List Functor} (hbatch : w.batch = f :: fs)
    (h : InStep cfg.loopThread (traffic w)) {r : WriteResult} (hr : Harmless r) {cs : List Call}
    (hcs : ∀ c ∈ cs, HarmlessCall c) :
    InStep cfg.loopThread (traffic ({ w with batch := fs }.runFunctor cfg r cs f)) := by
  have htraffic : traffic w =
      { traffic { w with batch := fs } with
        queued := sends [f] ++ (traffic { w with batch := fs }).queued } := by
    simp only [traffic, hbatch, ← sends_append]
    rfl
  rw [htraffic] at h
  cases f with
  | sendInLoop t m =>
    rw [World.runFunctor, traffic_sendInLoop t m hr]
    exact h.execute
  | shutdownInLoop =>
    rw [World.runFunctor, traffic_shutdownInLoop]
    exact h
  | forceCloseInLoop =>
    rw [World.runFunctor, traffic_forceCloseInLoop]
    exact h
  | writeComplete => exact doCalls_inStep h hcs
  | highWaterMark size => exact doCalls_inStep h hcs
  | connectionDestroyed =>
    rw [World.runFunctor, traffic_connectionDestroyed]
    exact h

theorem step_inStep {a : Act} {w' : World} (h : InStep cfg.loopThread (traffic w))
    (ha : HarmlessAct a) (hstep : step cfg w a = some w') :
    InStep cfg.loopThread (traffic w') := by
  cases (step_move hstep).2 with
  | call t c => exact doCall_inStep h t ha
  | swapFunctors hbatch => simpa [traffic, hbatch] using h
  | runFunctor r cs f fs hbatch => exact runFunctor_inStep hbatch h ha.1 ha.2
  | dispatch e r cs r' => exact dispatch_inStep h e r ha.2 r'
  | connectionDestroyed =>
    rw [traffic_connectionDestroyed]
    exact h
  | removeInLoop =>
    rw [World.removeConnectionInLoop, traffic_queueInLoop rfl]
    exact h

theorem stepAny_inStep {a : Act} {w' : World} (h : InStep cfg.loopThread (traffic w))
    (ha : HarmlessAct a) (hstep : stepAny cfg w a = some w') :
    InStep cfg.loopThread (traffic w') := by
  rcases stepAny_cases hstep with hplain | ⟨e, r, cs, r', rfl, -, -, rfl⟩
  · exact step_inStep h ha hplain
  · exact dispatch_inStep h e r ha.2 r'

theorem run_inStep {acts : List Act} {w' : World} (h : InStep cfg.loopThread (traffic w))
    (hacts : ∀ a ∈ acts, HarmlessAct a) (hrun : run (stepAny cfg) w acts = some w') :
    InStep cfg.loopThread (traffic w') :=
  run_invariant (fun _ _ _ hw ha hs => stepAny_inStep hw ha hs) h (guarded_of_forall hacts) hrun

theorem established_inStep (initial : ℕ) : InStep cfg.loopThread (traffic (established initial)) := by
  refine ⟨?_, fun t => ?_, ?_⟩ <;> simp [traffic, established, World.connectionEstablished,
    World.addFd, wire, sends, ofThread]

/-- The message of a call that `send` accepts. -/
def submission (w : World) (t : ThreadId) : Call → List (ThreadId × Bytes)
  | .send m _ => if w.state = .connected then [(t, m)] else []
  | .shutdown | .forceClose | .retrieve _ => []

/-- The messages accepted in a callback; a call that throws is its last. -/
def submissions (cfg : Config) (w : World) : List Call → List (ThreadId × Bytes)
  | [] => []
  | c :: cs =>
    submission w cfg.loopThread c ++
      if (w.doCall cfg cfg.loopThread c).thrown.isSome then []
      else submissions cfg (w.doCall cfg cfg.loopThread c) cs

/-- The sends accepted in a move, with the threads that make them. -/
def submitted (cfg : Config) (w : World) : Act → List (ThreadId × Bytes)
  | .call t c => submission w t c
  | .runFunctor _ cs =>
    match w.batch with
    | .writeComplete :: fs => submissions cfg { w with batch := fs } cs
    | .highWaterMark _ :: fs => submissions cfg { w with batch := fs } cs
    | _ => []
  | .dispatch e (.received (b :: data)) cs _ =>
    if e.read then submissions cfg { w with input := w.input.readFd (.received (b :: data)) } cs else []
  | .dispatch _ _ _ _ | .swapFunctors | .connectionDestroyed | .removeInLoop => []

/-- The sends executed in a move: the loop thread's own, and that of the functor that runs. -/
def delivered (cfg : Config) (w : World) (a : Act) : List (ThreadId × Bytes) :=
  ofThread cfg.loopThread (submitted cfg w a) ++
    match a with
    | .runFunctor _ _ => sends (w.batch.take 1)
    | _ => []

structure Logged (w v : World) (accepted done : List (ThreadId × Bytes)) : Prop where
  issued : v.issued = w.issued ++ accepted
  executed : v.executed = w.executed ++ done

theorem Logged.trans {v u : World} {as bs as' bs' : List (ThreadId × Bytes)} (h : Logged w v as bs)
    (g : Logged v u as' bs') : Logged w u (as ++ as') (bs ++ bs') where
  issued := by rw [g.issued, h.issued, List.append_assoc]
  executed := by rw [g.executed, h.executed, List.append_assoc]

theorem logged_same {v : World} (hissued : v.issued = w.issued) (hexecuted : v.executed = w.executed) :
    Logged w v [] [] :=
  ⟨by rw [hissued, List.append_nil], by rw [hexecuted, List.append_nil]⟩

theorem logged_of_traffic {v : World} (h : traffic v = traffic w) : Logged w v [] [] :=
  logged_same (congrArg Traffic.issued h) (congrArg Traffic.executed h)

theorem logged_bufferRemaining (data : Bytes) : Logged w (w.bufferRemaining cfg data) [] [] := by
  have htraffic : traffic (w.bufferRemaining cfg data) = _ := traffic_bufferRemaining data
  exact logged_same (congrArg Traffic.issued htraffic) (congrArg Traffic.executed htraffic)

theorem logged_sendInLoop (t : ThreadId) (m : Bytes) (r : WriteResult) :
    Logged w (w.sendInLoop cfg t m r) [] [(t, m)] := by
  have hlog : Logged w { w with executed := w.executed ++ [(t, m)] } [] [(t, m)] := ⟨by simp, rfl⟩
  unfold World.sendInLoop
  simp only
  split_ifs
  · cases r with
    | wrote n =>
      simp only
      split_ifs
      · exact hlog.trans ⟨(logged_bufferRemaining _).issued, (logged_bufferRemaining _).executed⟩
      · exact hlog.trans ⟨(logged_bufferRemaining _).issued, (logged_bufferRemaining _).executed⟩
    | failed e =>
      simp only
      split_ifs
      · exact hlog
      · exact hlog.trans (logged_bufferRemaining m)
  · exact hlog.trans (logged_bufferRemaining m)

theorem logged_doCall (t : ThreadId) (c : Call) : Logged w (w.doCall cfg t c) (submission w t c)
    (ofThread cfg.loopThread (submission w t c)) := by
  cases c with
  | send m r =>
    simp only [World.doCall, World.send, submission]
    split_ifs with hconn ht
    · have hlog : Logged w { w with issued := w.issued ++ [(t, m)] } [(t, m)] [] := ⟨rfl, by simp⟩
      simpa [ofThread, ht] using hlog.trans (logged_sendInLoop t m r)
    · exact ⟨rfl, by simp [ofThread, ht, World.queueInLoop]⟩
    · exact ⟨by simp, by simp [ofThread]⟩
  | shutdown => exact logged_of_traffic (traffic_shutdown t)
  | forceClose => exact logged_of_traffic (traffic_forceClose t)
  | retrieve len => exact ⟨by simp [World.doCall, submission], by simp [World.doCall, submission, ofThread]⟩

theorem logged_doCalls (cs : List Call) : Logged w (w.doCalls cfg cs) (submissions cfg w cs)
    (ofThread cfg.loopThread (submissions cfg w cs)) := by
  induction cs generalizing w with
  | nil => exact logged_of_traffic rfl
  | cons c cs ih =>
    have hcall : Logged w (w.doCall cfg cfg.loopThread c) _ _ := logged_doCall cfg.loopThread c
    simp only [World.doCalls, World.andThen, submissions]
    split_ifs
    · simpa using hcall
    · rw [ofThread_append]
      exact hcall.trans ih

theorem logged_dispatch (e : Events) (r : ReadResult) (cs : List Call) (r' : WriteResult) :
    Logged w (w.dispatch cfg e r cs r') (submitted cfg w (.dispatch e r cs r'))
      (ofThread cfg.loopThread (submitted cfg w (.dispatch e r cs r'))) := by
  have hinput : traffic { w with input := w.input.readFd r } = traffic w := rfl
  have hread : Logged w (if e.read then w.handleRead cfg r cs else w) (submitted cfg w (.dispatch e r cs r'))
      (ofThread cfg.loopThread (submitted cfg w (.dispatch e r cs r'))) := by
    cases hr : e.read with
    | false => cases r with
      | failed _ => exact logged_of_traffic rfl
      | received data => cases data <;> simpa [submitted, hr, ofThread] using logged_of_traffic rfl
    | true =>
      cases r with
      | failed err => exact logged_of_traffic (traffic_handleClose.trans hinput)
      | received data =>
        cases data with
        | nil => exact logged_of_traffic (traffic_handleClose.trans hinput)
        | cons b data =>
          simp only [submitted, hr, if_true]
          exact (logged_of_traffic hinput).trans (logged_doCalls cs)
  have hrest : Logged w (w.dispatch cfg e r cs r') _ _ :=
    hread.trans (logged_of_traffic (traffic_dispatchRest e r' _))
  simp only [List.append_nil] at hrest
  exact hrest

theorem logged_runFunctor {f : Functor} {fs : List Functor} (hbatch : w.batch = f :: fs) (r : WriteResult)
    (cs : List Call) : Logged w ({ w with batch := fs }.runFunctor cfg r cs f)
      (submitted cfg w (.runFunctor r cs)) (delivered cfg w (.runFunctor r cs)) := by
  have hpop : Logged w { w with batch := fs } [] [] := logged_same rfl rfl
  simp only [submitted, delivered, hbatch, List.take_succ_cons, List.take_zero]
  cases f with
  | sendInLoop t m => exact hpop.trans (logged_sendInLoop t m r)
  | shutdownInLoop => exact hpop.trans (logged_of_traffic traffic_shutdownInLoop)
  | forceCloseInLoop => exact hpop.trans (logged_of_traffic traffic_forceCloseInLoop)
  | connectionDestroyed => exact hpop.trans (logged_of_traffic traffic_connectionDestroyed)
  | writeComplete | highWaterMark =>
    have hcalls : Logged w ({ w with batch := fs }.doCalls cfg cs) _ _ := hpop.trans (logged_doCalls cs)
    simpa [World.runFunctor, sends] using hcalls

theorem logged_step {a : Act} {w' : World} (hstep : stepAny cfg w a = some w') :
    Logged w w' (submitted cfg w a) (delivered cfg w a) := by
  rcases stepAny_cases hstep with hplain | ⟨e, r, cs, r', rfl, -, -, rfl⟩
  · cases (step_move hplain).2 with
    | call t c => simpa [submitted, delivered] using logged_doCall t c
    | swapFunctors hbatch => exact ⟨by simp [submitted], by simp [submitted, delivered, ofThread]⟩
    | runFunctor r cs f fs hbatch => exact logged_runFunctor hbatch r cs
    | dispatch e r cs r' => simpa [delivered] using logged_dispatch e r cs r'
    | connectionDestroyed => exact logged_of_traffic traffic_connectionDestroyed
    | removeInLoop =>
      refine logged_of_traffic ?_
      rw [World.removeConnectionInLoop, traffic_queueInLoop rfl]
      rfl
  · simpa [delivered] using logged_dispatch e r cs r'

/-- Over every run whose writes never fail with EPIPE or ECONNRESET, and at every moment of
it: the bytes on the socket followed by the output buffer are the messages of the executed
sends, whole and in the order of execution, and each thread's accepted sends are those
executed followed by those in its pending functors, in the order it made them. What is recorded
as accepted and as executed is what the moves of the run submit and deliver. -/
theorem output_is_whole_messages (cfg : Config) (initial : ℕ) (acts : List Act) (w : World)
    (hacts : ∀ a ∈ acts, HarmlessAct a) (hrun : run (stepAny cfg) (established initial) acts = some w) :
    wire w.socket ++ w.output.readable = (w.executed.map Prod.snd).flatten ∧
      (∀ t, ofThread t w.issued = ofThread t w.executed ++ ofThread t (sends (w.batch ++ w.pending))) ∧
      w.issued = Simulation.trace (stepAny cfg) (submitted cfg) (established initial) acts ∧
      w.executed = Simulation.trace (stepAny cfg) (delivered cfg) (established initial) acts := by
  have hfinal := run_inStep (established_inStep initial) hacts hrun
  have hissued := Simulation.log_trace (fun _ _ _ hs => (logged_step hs).issued) hrun
  have hexecuted := Simulation.log_trace (fun _ _ _ hs => (logged_step hs).executed) hrun
  exact ⟨hfinal.stream, hfinal.order, hissued, hexecuted⟩

/-- Two threads and the loop, with a partial write, a full socket and a late functor. -/
theorem output_is_whole_messages_mixed :
    let acts : List Act := [.call 1 (.send [1, 2, 3] (.wrote 0)), .call 0 (.send [7, 8] (.wrote 1)),
      .swapFunctors, .runFunctor (.failed .wouldBlock) [], .call 2 (.send [4] (.wrote 0)),
      .dispatch { write := true } (.received []) [] (.wrote 3)]
    ∃ w, run (stepAny {}) (established 4) acts = some w ∧
      wire w.socket ++ w.output.readable = (w.executed.map Prod.snd).flatten ∧
      (∀ t, ofThread t w.issued = ofThread t w.executed ++ ofThread t (sends (w.batch ++ w.pending))) ∧
      w.issued = Simulation.trace (stepAny {}) (submitted {}) (established 4) acts ∧
      w.executed = Simulation.trace (stepAny {}) (delivered {}) (established 4) acts := by
  intro acts
  have hacts : ∀ a ∈ acts, HarmlessAct a := by
    simp [acts, HarmlessAct, HarmlessCall, Harmless]
  obtain ⟨w, hw⟩ := Option.isSome_iff_exists.mp
    (show (run (stepAny {}) (established 4) acts).isSome by decide)
  exact ⟨w, hw, output_is_whole_messages {} 4 acts w hacts hw⟩

end TzzeroHttp.ConnectionOutput
