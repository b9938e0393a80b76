import TzzeroHttp.ConnectionModel
import TzzeroHttp.Runs

/-! Connection, poller and output buffer in step. Every operation either throws or leads from
a synced connection to a synced one, and none moves the state backwards. The loop copies the
handlers of all ready descriptors before it calls the first of them, so here an event may also
reach a connection that an earlier handler of the same round took from the poller. -/
namespace TzzeroHttp.ConnectionInterest
open ByteText BufferModel ConnectionModel Runs
open BufferQueue (ByteBuffer)

def rank : ConnState → ℕ
  | .connecting => 0
  | .connected => 1
  | .disconnecting => 2
  | .disconnected => 3

/-- Registered exactly while CONNECTED or DISCONNECTING; then READ is always wanted, and WRITE
exactly while there is something to write. -/
structure Synced (w : World) : Prop where
  registered : w.interest.isSome ↔ w.state = .connected ∨ w.state = .disconnecting
  wanted : ∀ e ∈ w.interest, e.read = true ∧ (e.write = true ↔ w.output.readable ≠ [])

def created (initial : ℕ) : World :=
  { input := ByteBuffer.new initial, output := ByteBuffer.new initial }

/-- `step`, with an event that was collected while the descriptor was still registered. -/
def stepAny (cfg : Config) (w : World) : Act → Option World
  | .dispatch e r cs r' =>
    if w.thrown = none ∧ w.batch = [] then some (w.dispatch cfg e r cs r') else none
  | a => step cfg w a

/-- What every operation does; an operation that throws owes nothing but the order. -/
structure Advance (w w' : World) : Prop where
  forward : rank w.state ≤ rank w'.state
  sticky : w'.thrown = none → w.thrown = none
  synced : w'.thrown = none → Synced w → Synced w'

theorem Advance.refl (w : World) : Advance w w := ⟨le_rfl, id, fun _ h => h⟩

theorem Advance.trans {w v u : World} (h : Advance w v) (g : Advance v u) : Advance w u where
  forward := h.forward.trans g.forward
  sticky hu := h.sticky (g.sticky hu)
  synced hu hw := g.synced hu (h.synced (g.sticky hu) hw)

variable {cfg : Config} {w v : World}

theorem advance_of_eq (hstate : v.state = w.state) (hinterest : v.interest = w.interest)
    (houtput : v.output = w.output) (hthrown : v.thrown = w.thrown) : Advance w v where
  forward := by rw [hstate]
  sticky h := hthrown ▸ h
  synced _ hw := ⟨by rw [hinterest, hstate]; exact hw.registered,
    by rw [hinterest, houtput]; exact hw.wanted⟩

theorem Advance.after {u : World} (g : Advance v u) (hstate : v.state = w.state)
    (hinterest : v.interest = w.interest) (houtput : v.output = w.output)
    (hthrown : v.thrown = w.thrown) : Advance w u :=
  (advance_of_eq hstate hinterest houtput hthrown).trans g

theorem advance_throw {e : PollerError} (h : rank w.state ≤ rank v.state) : Advance w (v.throw e) :=
  ⟨h, by simp [World.throw], by simp [World.throw]⟩

theorem Advance.andThen {f : World → World} (h : Advance w v) (hf : Advance v (f v)) :
    Advance w (v.andThen f) := by
  unfold World.andThen
  split_ifs
  · exact h
  · exact h.trans hf

/-- A change of the output buffer with the interest that goes with it. -/
theorem advance_modifyFd {e : Events} (hstate : v.state = w.state) (hinterest : v.interest = w.interest)
    (hthrown : v.thrown = w.thrown) (hread : e.read = true)
    (hwrite : e.write = true ↔ v.output.readable ≠ []) : Advance w (v.modifyFd e) := by
  unfold World.modifyFd
  cases hi : v.interest with
  | none => exact advance_throw (by rw [hstate])
  | some i =>
    refine ⟨by rw [← hstate], fun h => hthrown ▸ h, fun _ hw => ⟨?_, ?_⟩⟩
    · have hreg := hw.registered
      rw [← hinterest, ← hstate, hi] at hreg
      simpa using hreg
    · rintro e' he'
      obtain rfl := Option.some.inj he'
      exact ⟨hread, hwrite⟩

theorem advance_queueInLoop (f : Functor) : Advance w (w.queueInLoop f) :=
  advance_of_eq rfl rfl rfl rfl

theorem advance_bufferRemaining (data : Bytes) : Advance w (w.bufferRemaining cfg data) := by
  unfold World.bufferRemaining
  simp only
  split_ifs with hdata hmark
  · exact .refl w
  · exact advance_modifyFd rfl rfl rfl rfl (by simp [hdata])
  · exact advance_modifyFd rfl rfl rfl rfl (by simp [hdata])

theorem advance_sendInLoop (t : ThreadId) (m : Bytes) (r : WriteResult) :
    Advance w (w.sendInLoop cfg t m r) := by
  unfold World.sendInLoop
  simp only
  split_ifs
  · cases r with
    | wrote n =>
      simp only
      split_ifs
      · exact ((advance_queueInLoop _).trans (advance_bufferRemaining _)).after rfl rfl rfl rfl
      · exact (advance_bufferRemaining _).after rfl rfl rfl rfl
    | failed e =>
      simp only
      split_ifs
      · exact advance_of_eq rfl rfl rfl rfl
      · exact (advance_bufferRemaining m).after rfl rfl rfl rfl
  · exact (advance_bufferRemaining m).after rfl rfl rfl rfl

theorem advance_shutdownInLoop : Advance w w.shutdownInLoop := by
  unfold World.shutdownInLoop
  split_ifs
  · exact advance_of_eq rfl rfl rfl rfl
  · exact .refl w

theorem advance_closeCallback : Advance w (w.closeCallback cfg) := by
  unfold World.closeCallback
  cases cfg.closeCallback <;> exact advance_of_eq rfl rfl rfl rfl

theorem advance_handleClose : Advance w (w.handleClose cfg) := by
  have hremove : Advance w ({ w with state := .disconnected, closes := w.closes + 1 }.removeFd) := by
    have hlast : rank w.state ≤ rank .disconnected := by cases w.state <;> decide
    unfold World.removeFd
    cases hi : w.interest with
    | none => exact advance_throw hlast
    | some i => exact ⟨hlast, id, fun _ _ => ⟨by simp, by simp⟩⟩
  exact hremove.andThen advance_closeCallback

theorem advance_connectionDestroyed : Advance w (w.connectionDestroyed cfg) := by
  unfold World.connectionDestroyed
  split_ifs
  · exact advance_handleClose
  · exact .refl w

theorem advance_forceCloseInLoop : Advance w (w.forceCloseInLoop cfg) := by
  unfold World.forceCloseInLoop
  split_ifs
  · exact advance_handleClose
  · exact .refl w

theorem advance_disconnecting (hstate : w.state = .connected ∨ w.state = .disconnecting) :
    Advance w { w with state := .disconnecting } where
  forward := by rcases hstate with h | h <;> simp [h, rank]
  sticky := id
  synced _ hw := ⟨by simpa [hstate] using hw.registered, hw.wanted⟩

theorem advance_send (t : ThreadId) (m : Bytes) (r : WriteResult) : Advance w (w.send cfg t m r) := by
  unfold World.send
  simp only
  split_ifs
  · exact (advance_sendInLoop t m r).after rfl rfl rfl rfl
  · exact advance_of_eq rfl rfl rfl rfl
  · exact .refl w

theorem advance_shutdown (t : ThreadId) : Advance w (w.shutdown cfg t) := by
  unfold World.shutdown
  simp only
  split_ifs with hstate
  · exact (advance_disconnecting (.inl hstate)).trans advance_shutdownInLoop
  · exact (advance_disconnecting (.inl hstate)).trans (advance_queueInLoop _)
  · exact .refl w

theorem advance_forceClose (t : ThreadId) : Advance w (w.forceClose cfg t) := by
  unfold World.forceClose
  simp only
  split_ifs with hstate
  · exact (advance_disconnecting hstate).trans advance_forceCloseInLoop
  · exact (advance_disconnecting hstate).trans (advance_queueInLoop _)
  · exact .refl w

theorem advance_doCall (t : ThreadId) (c : Call) : Advance w (w.doCall cfg t c) := by
  cases c with
  | send m r => exact advance_send t m r
  | shutdown => exact advance_shutdown t
  | forceClose => exact advance_forceClose t
  | retrieve len => exact advance_of_eq rfl rfl rfl rfl

theorem advance_doCalls (cs : List Call) : Advance w (w.doCalls cfg cs) := by
  induction cs generalizing w with
  | nil => exact .refl w
  | cons c cs ih => exact (advance_doCall cfg.loopThread c).andThen ih

theorem advance_handleRead (r : ReadResult) (cs : List Call) : Advance w (w.handleRead cfg r cs) := by
  have hinput : Advance w { w with input := w.input.readFd r } := advance_of_eq rfl rfl rfl rfl
  cases r with
  | failed e => exact hinput.trans advance_handleClose
  | received data =>
    cases data with
    | nil => exact hinput.trans advance_handleClose
    | cons b data => exact hinput.trans (advance_doCalls cs)

theorem advance_outputDrained (hstate : v.state = w.state) (hinterest : v.interest = w.interest)
    (hthrown : v.thrown = w.thrown) (hempty : v.output.readable = []) :
    Advance w (v.outputDrained cfg) := by
  refine (advance_modifyFd hstate hinterest hthrown rfl (by simp [hempty])).andThen ?_
  simp only
  split_ifs
  · exact (advance_queueInLoop _).trans advance_shutdownInLoop
  · exact advance_queueInLoop _
  · exact advance_shutdownInLoop
  · exact .refl _

theorem advance_written {data : Bytes} {n : ℕ} (hdata : w.output.readable ≠ [])
    (hrest : (w.output.writeFd (.wrote n)).readable ≠ []) :
    Advance w { w with socket := w.socket ++ [.wrote data], output := w.output.writeFd (.wrote n) } where
  forward := le_rfl
  sticky := id
  synced _ hw := by
    refine ⟨hw.registered, fun e he => ?_⟩
    have hwanted := hw.wanted e he
    simpa [hdata, hrest] using hwanted

theorem advance_handleWrite (r : WriteResult) : Advance w (w.handleWrite cfg r) := by
  unfold World.handleWrite
  split_ifs
  · cases r with
    | failed e => exact .refl w
    | wrote n =>
      simp only
      split_ifs with hdata hempty
      · exact .refl w
      · exact advance_outputDrained rfl rfl rfl (by simpa using hempty)
      · refine advance_written ?_ (by simpa using hempty)
        intro hnil
        simp [hnil] at hdata
  · exact .refl w

theorem advance_dispatch (e : Events) (r : ReadResult) (cs : List Call) (r' : WriteResult) :
    Advance w (w.dispatch cfg e r cs r') := by
  unfold World.dispatch
  refine Advance.andThen (Advance.andThen ?_ ?_) ?_
  · split_ifs
    · exact advance_handleRead r cs
    · exact .refl w
  · split_ifs <;> first | exact advance_handleWrite r' | exact .refl _
  · split_ifs <;> first | exact advance_handleClose | exact .refl _

theorem advance_runFunctor (r : WriteResult) (cs : List Call) (f : Functor) :
    Advance w (w.runFunctor cfg r cs f) := by
  cases f with
  | sendInLoop t m => exact advance_sendInLoop t m r
  | shutdownInLoop => exact advance_shutdownInLoop
  | forceCloseInLoop => exact advance_forceCloseInLoop
  | writeComplete => exact advance_doCalls cs
  | highWaterMark size => exact advance_doCalls cs
  | connectionDestroyed => exact advance_connectionDestroyed

theorem advance_move {a : Act} (h : Move cfg w a v) : Advance w v := by
  cases h with
  | call t c => exact advance_doCall t c
  | swapFunctors hbatch => exact advance_of_eq rfl rfl rfl rfl
  | runFunctor r cs f fs hbatch =>
    exact (advance_runFunctor r cs f).after rfl rfl rfl rfl
  | dispatch e r cs r' hinterest hbatch => exact advance_dispatch e r cs r'
  | connectionDestroyed => exact advance_connectionDestroyed
  | removeInLoop hremovals => exact advance_of_eq rfl rfl rfl rfl

/-- A step of the connection proper, or an event that comes after the descriptor was removed. -/
theorem stepAny_cases {a : Act} (h : stepAny cfg w a = some v) :
    step cfg w a = some v ∨ ∃ e r cs r', a = .dispatch e r cs r' ∧ w.interest = none ∧
      w.thrown = none ∧ v = w.dispatch cfg e r cs r' := by
  cases a with
  | dispatch e r cs r' =>
    obtain ⟨⟨hthrown, hbatch⟩, rfl⟩ := guard_eq_some h
    cases hi : w.interest with
    | none => exact .inr ⟨e, r, cs, r', rfl, rfl, hthrown, rfl⟩
    | some i => exact .inl (by simp [step, hthrown, hbatch, hi])
  | _ => exact .inl h

theorem step_stepAny {a : Act} (h : step cfg w a = some v) : stepAny cfg w a = some v := by
  obtain ⟨hthrown, hmove⟩ := step_move h
  cases hmove with
  | dispatch e r cs r' hinterest hbatch => simp [stepAny, hthrown, hbatch]
  | _ => exact h

theorem run_stepAny {acts : List Act} (h : run (step cfg) w acts = some v) :
    run (stepAny cfg) w acts = some v := by
  induction acts generalizing w with
  | nil => exact h
  | cons a acts ih =>
    obtain ⟨w₁, h₁, h₂⟩ := run_cons.mp h
    exact run_cons.mpr ⟨w₁, step_stepAny h₁, ih h₂⟩

theorem advance_stepAny {a : Act} (h : stepAny cfg w a = some v) : Advance w v := by
  rcases stepAny_cases h with hstep | ⟨e, r, cs, r', rfl, -, -, rfl⟩
  · exact advance_move (step_move hstep).2
  · exact advance_dispatch e r cs r'

theorem advance_run {acts : List Act} (h : run (stepAny cfg) w acts = some v) : Advance w v := by
  induction acts generalizing w with
  | nil =>
    obtain rfl := Option.some.inj h
    exact .refl w
  | cons a acts ih =>
    obtain ⟨w₁, h₁, h₂⟩ := run_cons.mp h
    exact (advance_stepAny h₁).trans (ih h₂)

theorem established_synced (initial : ℕ) : Synced (established initial) := by
  refine ⟨by simp [established, World.connectionEstablished, World.addFd], ?_⟩
  simp [established, World.connectionEstablished, World.addFd]

/-- In every run: the state has only moved forward between any two of its states, beginning
with the constructor's, and as long as nothing has been thrown connection, poller and output
buffer are in step. -/
theorem connection_in_step (cfg : Config) (initial : ℕ) (before after : List Act) (w w' : World)
    (hbefore : run (stepAny cfg) (created initial).connectionEstablished before = some w)
    (hafter : run (stepAny cfg) w after = some w') :
    rank (created initial).state ≤ rank w.state ∧ rank w.state ≤ rank w'.state ∧
      (w'.thrown = none → Synced w') := by
  have h := advance_run hbefore
  have h' := advance_run hafter
  exact ⟨Nat.zero_le _, h'.forward, fun hthrown => (h.trans h').synced hthrown (established_synced initial)⟩

/-- A send that is cut short, drained by two events, then the end of the stream. -/
theorem connection_in_step_drained :
    let before : List Act := [.call 0 (.send [1, 2, 3] (.wrote 1)),
      .dispatch { write := true } (.received []) [] (.wrote 1)]
    let after : List Act := [.dispatch { write := true } (.received []) [] (.wrote 1),
      .call 1 .shutdown, .dispatch { read := true } (.received []) [] (.wrote 0),
      .dispatch { write := true } (.received []) [] (.wrote 1)]
    ∃ w w', run (stepAny {}) (created 64).connectionEstablished before = some w ∧
      run (stepAny {}) w after = some w' ∧ w.interest = some { read := true, write := true } ∧
      rank w.state ≤ rank w'.state ∧ Synced w' := by
  intro before after
  have hwaiting : (run (stepAny {}) (created 64).connectionEstablished before).map World.interest =
      some (some { read := true, write := true }) := by decide
  have hend : (run (stepAny {}) (created 64).connectionEstablished (before ++ after)).map
      World.thrown = some none := by decide
  obtain ⟨w, hw, hinterest⟩ := Option.map_eq_some_iff.mp hwaiting
  obtain ⟨w', hw', hthrown⟩ := Option.map_eq_some_iff.mp hend
  obtain ⟨v, hv, hafter⟩ := run_append.mp hw'
  obtain rfl : v = w := Option.some.inj (hv.symm.trans hw)
  obtain ⟨-, hforward, hsynced⟩ := connection_in_step {} 64 before after v w' hw hafter
  exact ⟨v, w', hw, hafter, hinterest, hforward, hsynced hthrown⟩

end TzzeroHttp.ConnectionInterest
