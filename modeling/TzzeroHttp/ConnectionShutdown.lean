import TzzeroHttp.ConnectionClose
import TzzeroHttp.ConnectionOutput

/-! Graceful shutdown. `shutdown()` leaves the state CONNECTED at once, and from then on
neither `send_in_loop` nor `handle_write` writes to the socket: what is in the output buffer
or in a queued send by then stays there. -/
namespace TzzeroHttp.ConnectionShutdown
open ByteText BufferModel ConnectionModel ConnectionOutput ConnectionClose Runs
open BufferQueue (ByteBuffer)

/-- The loop's moves after `shutdown()`: running the queued functors, whose callbacks do not
force a close, and handling write-ready events; no write fails for good. -/
def Draining : Act → Prop
  | .swapFunctors => True
  | .runFunctor r cs => Harmless r ∧ ∀ c ∈ cs, HarmlessCall c ∧ c ≠ .forceClose
  | .dispatch e _ cs r => e.read = false ∧ e.error = false ∧ Harmless r ∧ ∀ c ∈ cs, HarmlessCall c
  | _ => False

/-- A write-ready event whose `write` accepts bytes leaves the output buffer as it is, with
the state DISCONNECTING and data in the buffer. -/
def Stuck (cfg : Config) (w : World) : Prop :=
  w.state = .disconnecting ∧ w.output.readable ≠ [] ∧
    ∃ n > 0, (w.handleWrite cfg (.wrote n)).output.readable = w.output.readable

def Drained (w : World) : Prop := w.batch = [] ∧ w.pending = [] ∧ w.output.readable = []

/-- All accepted messages of the thread are executed, all executed messages are on the socket,
and SHUT_WR comes after the last of their bytes. -/
def Flushed (t : ThreadId) (w : World) : Prop :=
  ofThread t w.issued = ofThread t w.executed ∧
    ∃ pre post, w.socket = pre ++ .shutWr :: post ∧
      wire pre = (w.executed.map Prod.snd).flatten ∧ wire post = []

/-- What a thread that calls `shutdown()` in `w` may expect of every continuation. -/
def Flushes (cfg : Config) (w : World) (t : ThreadId) : Prop :=
  ∀ acts w', (∀ a ∈ acts, Draining a) → run (step cfg) (w.shutdown cfg t) acts = some w' →
    ¬ Stuck cfg w' ∧ (Drained w' → Flushed t w')

def Quiet (w : World) : Prop :=
  w.output.readable = [] ∧ ∀ m ∈ sends (w.batch ++ w.pending), m.2 = []

variable {cfg : Config} {w : World}

theorem Draining.harmless {a : Act} (h : Draining a) : HarmlessAct a := by
  cases a with
  | call t c => trivial
  | swapFunctors => trivial
  | runFunctor r cs => exact ⟨h.1, fun c hc => (h.2 c hc).1⟩
  | dispatch e r cs r' => exact h.2.2
  | connectionDestroyed => trivial
  | removeInLoop => trivial

structure Down (w : World) : Prop where
  thrown : w.thrown = none
  state : w.state = .disconnecting
  unforced : .forceCloseInLoop ∉ w.batch ++ w.pending

theorem Down.not_connected (hw : Down w) : w.state ≠ .connected := by
  simp [hw.state]

theorem Down.pop (hw : Down w) {f : Functor} {fs : List Functor} (hbatch : w.batch = f :: fs) :
    Down { w with batch := fs } := by
  refine { hw with unforced := fun hm => hw.unforced ?_ }
  rw [hbatch]
  exact List.mem_cons_of_mem f hm

theorem handleWrite_down (hw : Down w) (r : WriteResult) : w.handleWrite cfg r = w := by
  unfold World.handleWrite
  rw [if_neg hw.not_connected]

theorem stuck_of_output (hstate : w.state = .disconnecting) (hout : w.output.readable ≠ []) :
    Stuck cfg w := by
  refine ⟨hstate, hout, 1, Nat.one_pos, ?_⟩
  simp [World.handleWrite, hstate]

/-- Callbacks find the connection no longer CONNECTED, so their sends and shutdowns do nothing. -/
theorem doCalls_down (cfg : Config) {cs : List Call} (hw : Down w) (hcs : .forceClose ∉ cs) :
    ∃ input, w.doCalls cfg cs = { w with input := input } := by
  induction cs generalizing w with
  | nil => exact ⟨w.input, rfl⟩
  | cons c cs ih =>
    have hrest : .forceClose ∉ cs := fun h => hcs (by simp [h])
    obtain ⟨input, hc⟩ : ∃ input, w.doCall cfg cfg.loopThread c = { w with input := input } := by
      cases c with
      | send m r => exact ⟨w.input, by rw [World.doCall, World.send, if_neg hw.not_connected]⟩
      | shutdown => exact ⟨w.input, by rw [World.doCall, World.shutdown, if_neg hw.not_connected]⟩
      | forceClose => exact absurd (by simp) hcs
      | retrieve len => exact ⟨w.input.retrieve len, rfl⟩
    have hdown : Down { w with input := input } := { hw with }
    obtain ⟨input', hcs'⟩ := ih hdown hrest
    refine ⟨input', ?_⟩
    rw [World.doCalls, hc, andThen_eq hdown.thrown]
    exact hcs'

structure Passed (w : World) (f : Functor) (fs : List Functor) (v : World) : Prop where
  down : Down v
  output : v.output = w.output
  batch : v.batch = fs
  pending : v.pending = w.pending
  socket : v.socket = w.socket ++ if f = .shutdownInLoop then [.shutWr] else []

theorem runFunctor_down (cfg : Config) {f : Functor} {fs : List Functor} (r : WriteResult)
    (cs : List Call) (hw : Down w) (hbatch : w.batch = f :: fs) (hout : w.output.readable = [])
    (hcs : .forceClose ∉ cs) (hf : ∀ m ∈ sends [f], m.2 = []) :
    Passed w f fs ({ w with batch := fs }.runFunctor cfg r cs f) := by
  have hpop := hw.pop hbatch
  have hnc := hw.not_connected
  obtain ⟨input, hinput⟩ := doCalls_down cfg hpop hcs
  cases f with
  | sendInLoop t m =>
    obtain rfl : m = [] := hf (t, m) (by simp [sends])
    have hrun : World.runFunctor cfg r cs { w with batch := fs } (.sendInLoop t []) =
        { w with batch := fs, executed := w.executed ++ [(t, [])] } := by
      simp [World.runFunctor, World.sendInLoop, World.bufferRemaining, hnc]
    rw [hrun]
    exact ⟨{ hpop with }, rfl, rfl, rfl, by simp⟩
  | shutdownInLoop =>
    have hrun : World.runFunctor cfg r cs { w with batch := fs } .shutdownInLoop =
        { w with batch := fs, socket := w.socket ++ [.shutWr] } := by
      simp [World.runFunctor, World.shutdownInLoop, hout]
    rw [hrun]
    exact ⟨{ hpop with }, rfl, rfl, rfl, rfl⟩
  | forceCloseInLoop => exact absurd (by simp [hbatch]) hw.unforced
  | writeComplete =>
    rw [World.runFunctor, hinput]
    exact ⟨{ hpop with }, rfl, rfl, rfl, by simp⟩
  | highWaterMark size =>
    rw [World.runFunctor, hinput]
    exact ⟨{ hpop with }, rfl, rfl, rfl, by simp⟩
  | connectionDestroyed =>
    rw [World.runFunctor, World.connectionDestroyed, if_neg hnc]
    exact ⟨hpop, rfl, rfl, rfl, by simp⟩

/-- The way to the end after a `shutdown()` with nothing left to write: the socket log grows
only by SHUT_WR, at the latest when the queued functor for it has run. -/
structure Ending (log : List SocketEvent) (w : World) : Prop where
  down : Down w
  quiet : Quiet w
  socket : ∃ k, w.socket = log ++ List.replicate k .shutWr ∧
    (k = 0 → .shutdownInLoop ∈ w.batch ++ w.pending)

theorem step_ending {log : List SocketEvent} {a : Act} {w' : World} (hw : Ending log w)
    (ha : Draining a) (hstep : step cfg w a = some w') : Ending log w' := by
  obtain ⟨hdown, ⟨hout, hempty⟩, k, hlog, hk⟩ := hw
  cases (step_move hstep).2 with
  | call t c => exact absurd ha id
  | swapFunctors hbatch =>
    simp only [hbatch, List.nil_append] at hempty hk
    exact ⟨⟨hdown.thrown, hdown.state, by simpa [hbatch] using hdown.unforced⟩,
      ⟨hout, by simpa using hempty⟩, k, hlog, by simpa using hk⟩
  | runFunctor r cs f fs hbatch =>
    have hcs : .forceClose ∉ cs := fun h => (ha.2 _ h).2 rfl
    have hqueue : sends (w.batch ++ w.pending) = sends [f] ++ sends (fs ++ w.pending) := by
      rw [hbatch, ← sends_append]
      rfl
    rw [hqueue] at hempty
    obtain ⟨hd, ho, hb, hp, hs⟩ := runFunctor_down cfg r cs hdown hbatch hout hcs
      fun m hm => hempty m (by simp [hm])
    refine ⟨hd, ⟨by rw [ho, hout], fun m hm => hempty m ?_⟩, ?_⟩
    · rw [hb, hp] at hm
      exact List.mem_append_right _ hm
    · rw [hs, hb, hp, hlog]
      by_cases hf : f = .shutdownInLoop
      · exact ⟨k + 1, by simp [hf, List.replicate_succ'], by simp⟩
      · refine ⟨k, by simp [hf], fun hzero => ?_⟩
        have hm := hk hzero
        rw [hbatch, List.cons_append, List.mem_cons] at hm
        exact hm.resolve_left (Ne.symm hf)
  | dispatch e r cs r' hinterest hbatch =>
    have hsame : w.dispatch cfg e r cs r' = w := by
      unfold World.dispatch
      simp only [ha.1, ha.2.1, handleWrite_down hdown, Bool.false_eq_true, if_false, ite_self,
        andThen_eq hdown.thrown]
    rw [hsame]
    exact ⟨hdown, ⟨hout, hempty⟩, k, hlog, hk⟩
  | connectionDestroyed => exact absurd ha id
  | removeInLoop => exact absurd ha id

theorem shutdown_down (cfg : Config) (hw : Open w) (hconn : w.state = .connected) (t : ThreadId) :
    Down (w.shutdown cfg t) ∧ (w.shutdown cfg t).output = w.output ∧
      sends ((w.shutdown cfg t).batch ++ (w.shutdown cfg t).pending) = sends (w.batch ++ w.pending) := by
  have hunforced := hw.unforced hconn
  unfold World.shutdown World.shutdownInLoop World.queueInLoop
  simp only [if_pos hconn]
  split_ifs
  · exact ⟨⟨hw.thrown, rfl, hunforced⟩, rfl, rfl⟩
  · exact ⟨⟨hw.thrown, rfl, hunforced⟩, rfl, rfl⟩
  · exact ⟨⟨hw.thrown, rfl, by simpa using hunforced⟩, rfl, by simp [sends]⟩

theorem shutdown_ending (hw : Open w) (hconn : w.state = .connected) (hquiet : Quiet w) (t : ThreadId) :
    Ending w.socket (w.shutdown cfg t) := by
  obtain ⟨hdown, hout, hsends⟩ := shutdown_down cfg hw hconn t
  refine ⟨hdown, ⟨by rw [hout]; exact hquiet.1, by rw [hsends]; exact hquiet.2⟩, ?_⟩
  have hempty : w.output.readable = [] := hquiet.1
  unfold World.shutdown World.shutdownInLoop World.queueInLoop
  simp only [if_pos hconn, ByteBuffer.readableBytes_eq, hempty, List.length_nil, if_true]
  split_ifs
  · exact ⟨1, rfl, by simp⟩
  · exact ⟨0, by simp, by simp⟩

theorem flushes_of_quiet (hw : Open w) (hin : InStep cfg.loopThread (traffic w))
    (hconn : w.state = .connected) (hquiet : Quiet w) (t : ThreadId) : Flushes cfg w t := by
  intro acts w' hacts hrun
  have hend : Ending w.socket w' :=
    run_invariant (fun _ _ _ h ha hs => step_ending h ha hs) (shutdown_ending hw hconn hquiet t)
      (guarded_of_forall hacts) hrun
  have hin' := run_inStep (by rw [traffic_shutdown]; exact hin) (fun a ha => (hacts a ha).harmless)
    (ConnectionInterest.run_stepAny hrun)
  refine ⟨fun hstuck => hstuck.2.1 hend.quiet.1, ?_⟩
  rintro ⟨hbatch, hpending, hout⟩
  obtain ⟨k, hlog, hk⟩ := hend.socket
  have hone : k ≠ 0 := fun hzero => by simpa [hbatch, hpending] using hk hzero
  obtain ⟨j, rfl⟩ := Nat.exists_eq_succ_of_ne_zero hone
  have hshut : ∀ n, wire (List.replicate n .shutWr) = [] := by
    intro n
    simp [wire, List.flatMap_replicate]
  have hstream := hin'.stream
  have horder := hin'.order t
  simp only [traffic, hbatch, hpending, hout, hlog, wire_append, hshut, List.append_nil] at hstream horder
  refine ⟨by simpa [sends, ofThread] using horder, w.socket, List.replicate j .shutWr, ?_, hstream, hshut j⟩
  rw [hlog, List.replicate_succ]

def NeverStuck (cfg : Config) (w : World) : Prop :=
  ∀ acts w', (∀ a ∈ acts, Draining a) → run (step cfg) w acts = some w' → ¬ Stuck cfg w'

theorem NeverStuck.step (h : NeverStuck cfg w) {a : Act} {w' : World} (ha : Draining a)
    (hstep : step cfg w a = some w') : NeverStuck cfg w' := by
  intro acts w'' hacts hrun
  exact h (a :: acts) w'' (by simpa using ⟨ha, hacts⟩) (run_cons.mpr ⟨w', hstep, hrun⟩)

theorem readable_bufferRemaining (data : Bytes) :
    (w.bufferRemaining cfg data).output.readable = w.output.readable ++ data := by
  have hmodify : ∀ (v : World) e, (v.modifyFd e).output = v.output := by
    intro v e
    unfold World.modifyFd
    cases v.interest <;> rfl
  unfold World.bufferRemaining
  simp only
  split_ifs with hdata
  · simp [hdata]
  · rw [hmodify]
    exact ByteBuffer.readable_append _ _
  · rw [hmodify]
    exact ByteBuffer.readable_append _ _

/-- A send with bytes in it that runs after `shutdown()` gets stuck. -/
theorem sendInLoop_stuck (hw : Down w) {m : Bytes} (hm : m ≠ []) (t : ThreadId) (r : WriteResult) :
    Stuck cfg (w.sendInLoop cfg t m r) := by
  have hstate : (w.sendInLoop cfg t m r).state = w.state :=
    congrArg Control.state (keeps_sending.sendInLoop cfg w t m r).control
  refine stuck_of_output (hstate.trans hw.state) ?_
  simp [World.sendInLoop, hw.not_connected, readable_bufferRemaining, hm]

theorem step_runFunctor (cfg : Config) {f : Functor} {fs : List Functor} (ht : w.thrown = none)
    (hbatch : w.batch = f :: fs) (r : WriteResult) (cs : List Call) :
    step cfg w (.runFunctor r cs) = some ({ w with batch := fs }.runFunctor cfg r cs f) := by
  simp [step, ht, hbatch]

/-- Running a batch to its end after `shutdown()`. -/
theorem batch_quiet {fs : List Functor} (hw : Down w) (hout : w.output.readable = [])
    (hbatch : w.batch = fs) (hnever : NeverStuck cfg w) :
    (∀ m ∈ sends fs, m.2 = []) ∧ ∃ v, Down v ∧ v.output.readable = [] ∧ v.batch = [] ∧
      v.pending = w.pending ∧ NeverStuck cfg v := by
  induction fs generalizing w with
  | nil => exact ⟨by simp [sends], w, hw, hout, hbatch, rfl, hnever⟩
  | cons f fs ih =>
    have hdrain : Draining (.runFunctor (.wrote 0) []) := ⟨by simp [Harmless], by simp⟩
    have hstep := step_runFunctor cfg hw.thrown hbatch (.wrote 0) []
    have hempty : ∀ m ∈ sends [f], m.2 = [] := by
      intro m hm
      by_contra hne
      cases f with
      | sendInLoop t data =>
        obtain rfl : m = (t, data) := by simpa [sends] using hm
        exact hnever.step hdrain hstep [] _ (by simp) rfl (sendInLoop_stuck (hw.pop hbatch) hne t _)
      | _ => simp [sends] at hm
    obtain ⟨hd, ho, hb, hp, -⟩ := runFunctor_down cfg (.wrote 0) [] hw hbatch hout
      (by simp) hempty
    obtain ⟨hrest, v, hv, hvout, hvbatch, hvpending, hvnever⟩ :=
      ih hd (by rw [ho, hout]) hb (hnever.step hdrain hstep)
    refine ⟨fun m hm => ?_, v, hv, hvout, hvbatch, hvpending.trans hp, hvnever⟩
    rw [← List.singleton_append, sends_append, List.mem_append] at hm
    exact hm.elim (hempty m) (hrest m)

theorem quiet_of_flushes (hw : Open w) (hconn : w.state = .connected) {t : ThreadId}
    (h : Flushes cfg w t) : Quiet w := by
  obtain ⟨hdown, hout, hsends⟩ := shutdown_down cfg hw hconn t
  have hnever : NeverStuck cfg (w.shutdown cfg t) := fun acts w' ha hr => (h acts w' ha hr).1
  have hempty : w.output.readable = [] := by
    by_contra hne
    exact hnever [] _ (by simp) rfl (stuck_of_output hdown.state (by rwa [hout]))
  refine ⟨hempty, ?_⟩
  rw [← hsends, sends_append]
  obtain ⟨hbatch, v, hv, hvout, hvbatch, hvpending, hvnever⟩ :=
    batch_quiet hdown (by rw [hout, hempty]) rfl hnever
  have hswap : step cfg v .swapFunctors = some { v with batch := v.pending, pending := [] } := by
    simp [step, hv.thrown, hvbatch]
  have hdown' : Down { v with batch := v.pending, pending := [] } :=
    { hv with unforced := by simpa [hvbatch] using hv.unforced }
  obtain ⟨hpending, -⟩ := batch_quiet hdown' hvout rfl (hvnever.step (a := .swapFunctors) trivial hswap)
  intro m hm
  rw [hvpending] at hpending
  exact (List.mem_append.mp hm).elim (hbatch m) (hpending m)

/-- In every CONNECTED state that a run without EPIPE and ECONNRESET reaches, a thread that
then calls `shutdown()` sees all its messages go out before SHUT_WR, and no write-ready event
ignored, exactly when the output buffer is empty and no queued send has a byte. -/
theorem shutdown_flushes_iff (cfg : Config) (initial : ℕ) (acts : List Act) (w : World)
    (hacts : ∀ a ∈ acts, HarmlessAct a) (hrun : run (step cfg) (established initial) acts = some w)
    (hconn : w.state = .connected) (t : ThreadId) : Flushes cfg w t ↔ Quiet w := by
  have hopen := open_of_connected hrun hconn
  have hin := run_inStep (established_inStep initial) hacts (ConnectionInterest.run_stepAny hrun)
  exact ⟨quiet_of_flushes hopen hconn, fun hquiet => flushes_of_quiet hopen hin hconn hquiet t⟩

/-- A response the socket takes in two parts before another thread shuts down. -/
theorem shutdown_flushes_written :
    let acts : List Act := [.call 1 (.send [1, 2] (.wrote 0)), .swapFunctors,
      .runFunctor (.wrote 1) [], .dispatch { write := true } (.received []) [] (.wrote 1)]
    ∃ w, run (step {}) (established 16) acts = some w ∧ Flushes {} w 1 := by
  intro acts
  have hacts : ∀ a ∈ acts, HarmlessAct a := by
    simp [acts, HarmlessAct, HarmlessCall, Harmless]
  have hfinal : (run (step {}) (established 16) acts).map
      (fun w => (w.state, w.output.readable, sends (w.batch ++ w.pending))) =
        some (.connected, [], []) := by decide
  obtain ⟨w, hw, heq⟩ := Option.map_eq_some_iff.mp hfinal
  simp only [Prod.mk.injEq] at heq
  obtain ⟨hconn, hout, hsends⟩ := heq
  exact ⟨w, hw, (shutdown_flushes_iff {} 16 acts w hacts hw hconn 1).mpr
    ⟨hout, by simp [hsends]⟩⟩

/-- A response the socket takes in part, then `shutdown()`: the second byte is never written. -/
theorem shutdown_strands_output :
    ¬ ∀ (cfg : Config) (initial : ℕ) (acts : List Act) (w : World), (∀ a ∈ acts, HarmlessAct a) →
      run (step cfg) (established initial) acts = some w → w.state = .connected →
        ∀ t, Flushes cfg w t := by
  intro h
  let acts : List Act := [.call 0 (.send [1, 2] (.wrote 1))]
  have hacts : ∀ a ∈ acts, HarmlessAct a := by
    simp [acts, HarmlessAct, HarmlessCall, Harmless]
  have hfinal : (run (step {}) (established 16) acts).map
      (fun w => (w.state, (w.shutdown {} 0).state, (w.shutdown {} 0).output.readable)) =
        some (.connected, .disconnecting, [2]) := by decide
  obtain ⟨w, hw, heq⟩ := Option.map_eq_some_iff.mp hfinal
  simp only [Prod.mk.injEq] at heq
  obtain ⟨hconn, hstate, hout⟩ := heq
  have hflushes := h {} 16 acts w hacts hw hconn 0
  exact (hflushes [] _ (by simp) rfl).1 (stuck_of_output hstate (by simp [hout]))

end TzzeroHttp.ConnectionShutdown
