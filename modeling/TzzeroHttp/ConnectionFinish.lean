import TzzeroHttp.ConnectionOutput

/-! The end of a connection's output. Data goes to the socket only while the connection is
CONNECTED, and `::shutdown` is called at most once and only afterwards. So the socket never sees
data behind its FIN, and what is in the output buffer when CONNECTED is left stays there. -/
namespace TzzeroHttp.ConnectionFinish
open ByteText BufferModel ConnectionModel ConnectionOutput Runs
open BufferQueue (ByteBuffer)
open ConnectionInterest (stepAny stepAny_cases)

def queued (w : World) : List Functor := w.batch ++ w.pending

/-- Only data so far, or data and then the FIN, with no other to come. -/
structure Finishing (w : World) : Prop where
  ordered : (∃ ds : List Bytes, w.socket = ds.map .wrote) ∨
    ((∃ ds : List Bytes, w.socket = ds.map .wrote ++ [.shutWr]) ∧ w.state ≠ .connected ∧
      .shutdownInLoop ∉ queued w)
  once : (queued w).count .shutdownInLoop ≤ 1
  late : w.state = .connected → .shutdownInLoop ∉ queued w

structure Onward (w v : World) : Prop where
  state : v.state = .connected → w.state = .connected
  finishing : Finishing w → Finishing v
  frozen : w.state ≠ .connected → wire v.socket = wire w.socket ∧ w.output.readable <+: v.output.readable

theorem Onward.refl (w : World) : Onward w w := ⟨id, id, fun _ => ⟨rfl, List.prefix_rfl⟩⟩

theorem Onward.trans {w v u : World} (h : Onward w v) (g : Onward v u) : Onward w u where
  state hu := h.state (g.state hu)
  finishing hw := g.finishing (h.finishing hw)
  frozen hw := by
    obtain ⟨hwire, hout⟩ := h.frozen hw
    obtain ⟨hwire', hout'⟩ := g.frozen fun hv => hw (h.state hv)
    exact ⟨hwire'.trans hwire, hout.trans hout'⟩

theorem Onward.andThen {w v : World} {f : World → World} (h : Onward w v) (hf : Onward v (f v)) :
    Onward w (v.andThen f) := by
  unfold World.andThen
  split_ifs
  · exact h
  · exact h.trans hf

variable {cfg : Config} {w v : World}

/-- An operation that writes data while CONNECTED only and queues no `shutdown_in_loop`. -/
theorem onward_of (ds : List Bytes) (fs : List Functor)
    (hstate : v.state = .connected → w.state = .connected)
    (hsocket : v.socket = w.socket ++ ds.map .wrote) (hds : w.state ≠ .connected → ds = [])
    (hout : w.state ≠ .connected → w.output.readable <+: v.output.readable)
    (hqueue : queued v = queued w ++ fs) (hfs : .shutdownInLoop ∉ fs) : Onward w v where
  state := hstate
  finishing h := by
    have hnot : .shutdownInLoop ∉ queued w → .shutdownInLoop ∉ queued v := by
      intro hw
      rw [hqueue, List.mem_append, not_or]
      exact ⟨hw, hfs⟩
    refine ⟨?_, ?_, fun hv => hnot (h.late (hstate hv))⟩
    · rcases h.ordered with ⟨as, has⟩ | ⟨⟨as, has⟩, hleft, hnone⟩
      · exact .inl ⟨as ++ ds, by rw [hsocket, has, List.map_append]⟩
      · refine .inr ⟨⟨as, ?_⟩, fun hv => hleft (hstate hv), hnot hnone⟩
        rw [hsocket, hds hleft, has]
        simp
    · rw [hqueue, List.count_append, List.count_eq_zero_of_not_mem hfs]
      exact h.once
  frozen hw := by
    refine ⟨?_, hout hw⟩
    rw [hsocket, hds hw]
    simp

theorem onward_same (hstate : v.state = .connected → w.state = .connected) (hsocket : v.socket = w.socket)
    (hout : v.output = w.output) (hqueue : queued v = queued w) : Onward w v :=
  onward_of [] [] hstate (by simp [hsocket]) (fun _ => rfl) (fun _ => by rw [hout])
    (by simp [hqueue]) (by simp)

theorem onward_modifyFd (e : Events) : Onward w (w.modifyFd e) := by
  unfold World.modifyFd
  cases w.interest <;> exact onward_same id rfl rfl rfl

theorem onward_removeFd : Onward w w.removeFd := by
  unfold World.removeFd
  cases w.interest <;> exact onward_same id rfl rfl rfl

theorem onward_queueInLoop {f : Functor} (hf : f ≠ .shutdownInLoop) : Onward w (w.queueInLoop f) :=
  onward_of [] [f] id (by simp [World.queueInLoop]) (fun _ => rfl) (fun _ => List.prefix_rfl)
    (by simp [queued, World.queueInLoop]) (by simpa using hf.symm)

theorem onward_append (data : Bytes) : Onward w { w with output := w.output.append data } :=
  onward_of [] [] id (by simp) (fun _ => rfl)
    (fun _ => by simp) (by simp [queued]) (by simp)

theorem onward_wrote (data : Bytes) (hw : w.state = .connected) (out : ByteBuffer) :
    Onward w { w with socket := w.socket ++ [.wrote data], output := out } :=
  onward_of [data] [] id rfl (fun hne => absurd hw hne) (fun hne => absurd hw hne)
    (by simp [queued]) (by simp)

theorem onward_bufferRemaining (data : Bytes) : Onward w (w.bufferRemaining cfg data) := by
  unfold World.bufferRemaining
  simp only
  split_ifs
  · exact .refl w
  · exact (onward_queueInLoop (by simp)).trans ((onward_append data).trans (onward_modifyFd _))
  · exact (onward_append data).trans (onward_modifyFd _)

theorem onward_sendInLoop (t : ThreadId) (m : Bytes) (r : WriteResult) : Onward w (w.sendInLoop cfg t m r) := by
  have hlog : Onward w { w with executed := w.executed ++ [(t, m)] } := onward_same id rfl rfl rfl
  unfold World.sendInLoop
  simp only
  split_ifs with hdirect
  · cases r with
    | wrote n =>
      have hwrote := hlog.trans
        (onward_wrote (w := { w with executed := w.executed ++ [(t, m)] }) (m.take n) hdirect.1 w.output)
      simp only
      split_ifs
      · exact hwrote.trans ((onward_queueInLoop (by simp)).trans (onward_bufferRemaining _))
      · exact hwrote.trans (onward_bufferRemaining _)
    | failed e =>
      simp only
      split_ifs
      · exact hlog
      · exact hlog.trans (onward_bufferRemaining m)
  · exact hlog.trans (onward_bufferRemaining m)

theorem onward_send (t : ThreadId) (m : Bytes) (r : WriteResult) : Onward w (w.send cfg t m r) := by
  have hlog : Onward w { w with issued := w.issued ++ [(t, m)] } := onward_same id rfl rfl rfl
  unfold World.send
  simp only
  split_ifs
  · exact hlog.trans (onward_sendInLoop t m r)
  · exact hlog.trans (onward_queueInLoop (by simp))
  · exact .refl w

theorem onward_closeCallback : Onward w (w.closeCallback cfg) := by
  unfold World.closeCallback
  cases cfg.closeCallback with
  | none => exact .refl w
  | sameLoop =>
    have hbooks : Onward w { w with entries := 0, erasures := w.erasures ++ [w.entries] } :=
      onward_same id rfl rfl rfl
    exact hbooks.trans (onward_queueInLoop (by simp))
  | otherLoop => exact onward_same id rfl rfl rfl

theorem onward_handleClose : Onward w (w.handleClose cfg) := by
  have hstate : Onward w { w with state := .disconnected, closes := w.closes + 1 } :=
    onward_same (by simp) rfl rfl rfl
  exact (hstate.trans onward_removeFd).andThen onward_closeCallback

theorem onward_connectionDestroyed : Onward w (w.connectionDestroyed cfg) := by
  unfold World.connectionDestroyed
  split_ifs
  · exact onward_handleClose
  · exact .refl w

theorem onward_forceCloseInLoop : Onward w (w.forceCloseInLoop cfg) := by
  unfold World.forceCloseInLoop
  split_ifs
  · exact onward_handleClose
  · exact .refl w

theorem onward_disconnecting : Onward w { w with state := .disconnecting } := onward_same (by simp) rfl rfl rfl

theorem onward_forceClose (t : ThreadId) : Onward w (w.forceClose cfg t) := by
  unfold World.forceClose
  simp only
  split_ifs
  · exact onward_disconnecting.trans onward_forceCloseInLoop
  · exact onward_disconnecting.trans (onward_queueInLoop (by simp))
  · exact .refl w

/-- An operation that may send the one FIN. -/
theorem onward_fin (hstate : v.state ≠ .connected)
    (hsocket : v.socket = w.socket ∨ v.socket = w.socket ++ [.shutWr]) (hout : v.output = w.output)
    (hlast : Finishing w → (∃ ds : List Bytes, w.socket = ds.map .wrote) ∧ .shutdownInLoop ∉ queued v) :
    Onward w v where
  state hv := absurd hv hstate
  finishing h := by
    obtain ⟨⟨ds, hds⟩, hnone⟩ := hlast h
    refine ⟨?_, ?_, fun _ => hnone⟩
    · rcases hsocket with heq | heq
      · exact .inl ⟨ds, heq.trans hds⟩
      · exact .inr ⟨⟨ds, by rw [heq, hds]⟩, hstate, hnone⟩
    · rw [List.count_eq_zero_of_not_mem hnone]
      exact Nat.zero_le 1
  frozen _ := by
    refine ⟨?_, by rw [hout]⟩
    rcases hsocket with heq | heq <;> simp [heq]

theorem shutdownInLoop_socket : w.shutdownInLoop.state = w.state ∧ w.shutdownInLoop.output = w.output ∧
    queued w.shutdownInLoop = queued w ∧
    (w.shutdownInLoop.socket = w.socket ∨ w.shutdownInLoop.socket = w.socket ++ [.shutWr]) := by
  unfold World.shutdownInLoop
  split_ifs
  · exact ⟨rfl, rfl, rfl, .inr rfl⟩
  · exact ⟨rfl, rfl, rfl, .inl rfl⟩

theorem Finishing.connected (h : Finishing w) (hw : w.state = .connected) :
    (∃ ds : List Bytes, w.socket = ds.map .wrote) ∧ .shutdownInLoop ∉ queued w := by
  refine ⟨?_, h.late hw⟩
  rcases h.ordered with hdata | ⟨-, hleft, -⟩
  · exact hdata
  · exact absurd hw hleft

theorem onward_shutdown (t : ThreadId) : Onward w (w.shutdown cfg t) := by
  unfold World.shutdown
  simp only
  split_ifs with hw ht
  · obtain ⟨hstate, hout, hqueue, hsocket⟩ := shutdownInLoop_socket (w := { w with state := .disconnecting })
    refine onward_fin (by simp [hstate]) hsocket hout fun h => ?_
    rw [hqueue]
    exact h.connected hw
  · refine ⟨fun hv => absurd hv (by simp [World.queueInLoop]), fun h => ?_, fun hne => absurd hw hne⟩
    obtain ⟨hdata, hnone⟩ := h.connected hw
    have hcount : (queued (World.queueInLoop .shutdownInLoop { w with state := .disconnecting })).count
        .shutdownInLoop = 1 := by
      have hsplit : queued (World.queueInLoop .shutdownInLoop { w with state := .disconnecting }) =
          queued w ++ [.shutdownInLoop] := by simp [queued, World.queueInLoop]
      rw [hsplit, List.count_append, List.count_eq_zero_of_not_mem hnone]
      rfl
    exact ⟨.inl hdata, hcount.le, fun hv => absurd hv (by simp [World.queueInLoop])⟩
  · exact .refl w

/-- The branch for DISCONNECTING is dead: `handle_write` has just found the state CONNECTED. -/
theorem onward_outputDrained (hw : w.state = .connected) : Onward w (w.outputDrained cfg) := by
  have hstate : (w.modifyFd { read := true }).state = .connected := by
    unfold World.modifyFd
    cases w.interest <;> exact hw
  refine (onward_modifyFd _).andThen ?_
  generalize w.modifyFd { read := true } = u at hstate ⊢
  have hfirst : Onward u (if cfg.writeCompleteCallback then u.queueInLoop .writeComplete else u) := by
    split_ifs
    · exact onward_queueInLoop (by simp)
    · exact .refl u
  have hkept : (if cfg.writeCompleteCallback then u.queueInLoop .writeComplete else u).state ≠
      .disconnecting := by
    split_ifs <;> simp [World.queueInLoop, hstate]
  simp only [if_neg hkept]
  exact hfirst

theorem onward_handleWrite (r : WriteResult) : Onward w (w.handleWrite cfg r) := by
  unfold World.handleWrite
  split_ifs with hw
  · cases r with
    | failed e => exact .refl w
    | wrote n =>
      have hwrote := onward_wrote (w.output.readable.take n) hw
        (w.output.writeFd (.wrote (w.output.readable.take n).length))
      simp only
      split_ifs
      · exact .refl w
      · exact hwrote.trans (onward_outputDrained hw)
      · exact hwrote
  · exact .refl w

theorem onward_doCall (t : ThreadId) (c : Call) : Onward w (w.doCall cfg t c) := by
  cases c with
  | send m r => exact onward_send t m r
  | shutdown => exact onward_shutdown t
  | forceClose => exact onward_forceClose t
  | retrieve len => exact onward_same id rfl rfl rfl

theorem onward_doCalls (cs : List Call) : Onward w (w.doCalls cfg cs) := by
  induction cs generalizing w with
  | nil => exact .refl w
  | cons c cs ih => exact (onward_doCall cfg.loopThread c).andThen ih

theorem onward_dispatch (e : Events) (r : ReadResult) (cs : List Call) (r' : WriteResult) :
    Onward w (w.dispatch cfg e r cs r') := by
  have hinput : Onward w { w with input := w.input.readFd r } := onward_same id rfl rfl rfl
  have hread : Onward w (w.handleRead cfg r cs) := by
    unfold World.handleRead
    simp only
    split
    · exact hinput.trans onward_handleClose
    · exact hinput.trans (onward_doCalls cs)
    · exact hinput.trans onward_handleClose
  have hwrite : ∀ u : World, Onward u (if e.write then u.handleWrite cfg r' else u) := by
    intro u
    split_ifs
    · exact onward_handleWrite r'
    · exact .refl u
  have herror : ∀ u : World, Onward u (if e.error then u.handleError cfg else u) := by
    intro u
    split_ifs
    · exact onward_handleClose
    · exact .refl u
  refine Onward.andThen (Onward.andThen ?_ (hwrite _)) (herror _)
  split_ifs
  · exact hread
  · exact .refl w

theorem onward_runFunctor {f : Functor} {fs : List Functor} (hbatch : w.batch = f :: fs) (r : WriteResult)
    (cs : List Call) : Onward w ({ w with batch := fs }.runFunctor cfg r cs f) := by
  have hqueue : queued w = f :: queued { w with batch := fs } := by simp [queued, hbatch]
  have hpop : Onward w { w with batch := fs } := by
    refine ⟨id, fun h => ⟨?_, ?_, fun hv hmem => ?_⟩, fun _ => ⟨rfl, List.prefix_rfl⟩⟩
    · refine h.ordered.imp_right fun hfin => ⟨hfin.1, hfin.2.1, fun hmem => hfin.2.2 ?_⟩
      rw [hqueue]
      exact List.mem_cons_of_mem f hmem
    · have honce := h.once
      rw [hqueue, List.count_cons] at honce
      omega
    · refine h.late hv ?_
      rw [hqueue]
      exact List.mem_cons_of_mem f hmem
  cases f with
  | shutdownInLoop =>
    obtain ⟨hstate, hout, hqueue', hsocket⟩ := shutdownInLoop_socket (w := { w with batch := fs })
    by_cases hw : w.state = .connected
    · -- not in a state that a run reaches
      refine ⟨fun _ => hw, fun h => absurd ?_ (h.late hw), fun hne => absurd hw hne⟩
      rw [hqueue]
      exact List.mem_cons_self
    · refine onward_fin (by rw [World.runFunctor, hstate]; exact hw) hsocket hout fun h => ⟨?_, ?_⟩
      · rcases h.ordered with hdata | ⟨-, -, hnone⟩
        · exact hdata
        · rw [hqueue] at hnone
          exact absurd List.mem_cons_self hnone
      · have honce := h.once
        rw [hqueue, List.count_cons_self] at honce
        rw [World.runFunctor, hqueue']
        exact List.count_eq_zero.mp (by omega)
  | sendInLoop t m => exact hpop.trans (onward_sendInLoop t m r)
  | forceCloseInLoop => exact hpop.trans onward_forceCloseInLoop
  | writeComplete => exact hpop.trans (onward_doCalls cs)
  | highWaterMark size => exact hpop.trans (onward_doCalls cs)
  | connectionDestroyed => exact hpop.trans onward_connectionDestroyed

theorem onward_step {a : Act} (hstep : step cfg w a = some v) : Onward w v := by
  cases (step_move hstep).2 with
  | call t c => exact onward_doCall t c
  | swapFunctors hbatch => exact onward_same id rfl rfl (by simp [queued, hbatch])
  | runFunctor r cs f fs hbatch => exact onward_runFunctor hbatch r cs
  | dispatch e r cs r' hinterest hbatch => exact onward_dispatch e r cs r'
  | connectionDestroyed => exact onward_connectionDestroyed
  | removeInLoop hremovals =>
    have hbooks : Onward w { w with
        removals := w.removals - 1, entries := 0, erasures := w.erasures ++ [w.entries] } :=
      onward_same id rfl rfl rfl
    exact hbooks.trans (onward_queueInLoop (by simp))

theorem onward_stepAny {a : Act} (hstep : stepAny cfg w a = some v) : Onward w v := by
  rcases stepAny_cases hstep with hplain | ⟨e, r, cs, r', rfl, -, -, rfl⟩
  · exact onward_step hplain
  · exact onward_dispatch e r cs r'

theorem onward_run {acts : List Act} (hrun : run (stepAny cfg) w acts = some v) : Onward w v :=
  run_preserves (fun _ _ _ h hs => h.trans (onward_stepAny hs)) (.refl w) hrun

theorem established_finishing (initial : ℕ) : Finishing (established initial) := by
  refine ⟨.inl ⟨[], ?_⟩, ?_, ?_⟩ <;>
    simp [established, World.connectionEstablished, World.addFd, queued]

/-- Over every run of a connection: its socket has been given data, and behind all data at most
one FIN, that once CONNECTED has been left; and from then on no byte is written any more, so what
is in the output buffer stays in it. -/
theorem fin_follows_data (cfg : Config) (initial : ℕ) (acts : List Act) (w : World)
    (hrun : run (stepAny cfg) (established initial) acts = some w) :
    (∃ (ds : List Bytes) (fin : List SocketEvent), w.socket = ds.map .wrote ++ fin ∧
      (fin = [] ∨ fin = [.shutWr] ∧ w.state ≠ .connected)) ∧
    (w.state ≠ .connected → ∀ more w', run (stepAny cfg) w more = some w' →
      w'.state ≠ .connected ∧ wire w'.socket = wire w.socket ∧
        w.output.readable <+: w'.output.readable) := by
  have hend := (onward_run hrun).finishing (established_finishing initial)
  constructor
  · rcases hend.ordered with ⟨ds, hds⟩ | ⟨⟨ds, hds⟩, hleft, -⟩
    · exact ⟨ds, [], by simp [hds], .inl rfl⟩
    · exact ⟨ds, [.shutWr], hds, .inr ⟨rfl, hleft⟩⟩
  · intro hleft more w' hmore
    have honward := onward_run hmore
    exact ⟨fun hw' => hleft (honward.state hw'), honward.frozen hleft⟩

/-- A shutdown with bytes in the output buffer: a late send goes behind them, and write events
move none of them, one that comes after the descriptor was removed included. -/
theorem fin_follows_data_stuck :
    let acts : List Act := [.call 1 (.send [9] (.wrote 0)), .call 0 (.send [1, 2, 3] (.wrote 1)),
      .call 0 .shutdown]
    let more : List Act := [.swapFunctors, .runFunctor (.wrote 1) [],
      .dispatch { write := true } (.received []) [] (.wrote 2), .call 0 .forceClose,
      .dispatch { write := true } (.received []) [] (.wrote 2)]
    ∃ w w', run (stepAny {}) (established 4) acts = some w ∧ run (stepAny {}) w more = some w' ∧
      wire w'.socket = wire w.socket ∧ w.output.readable <+: w'.output.readable := by
  intro acts more
  have hend : (run (stepAny {}) (established 4) acts).map (fun w => w.state) = some .disconnecting := by
    decide
  obtain ⟨w, hw, hstate⟩ := Option.map_eq_some_iff.mp hend
  obtain ⟨w', hw'⟩ := Option.isSome_iff_exists.mp
    (show (run (stepAny {}) (established 4) (acts ++ more)).isSome by decide)
  obtain ⟨w₁, hfirst, hmore⟩ := run_append.mp hw'
  obtain rfl := Option.some.inj (hw.symm.trans hfirst)
  have hleft : w.state ≠ .connected := by simp [hstate]
  exact ⟨w, w', hw, hmore, ((fin_follows_data {} 4 acts w hw).2 hleft more w' hmore).2⟩

end TzzeroHttp.ConnectionFinish
