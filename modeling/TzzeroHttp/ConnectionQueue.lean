import TzzeroHttp.ConnectionModel

/-! What a connection does never depends on its functor queue, and all that it does to the queue
is to append. So the queue may as well be kept elsewhere, and shared with other connections. -/
namespace TzzeroHttp.ConnectionQueue
open ByteText BufferModel ConnectionModel

def under (pending batch : List Functor) (w : World) : World :=
  { w with pending := pending ++ w.pending, batch := batch }

/-- An operation that commutes with the queue. -/
def Local (f : World → World) : Prop := ∀ p b w, f (under p b w) = under p b (f w)

theorem Local.comp {f g : World → World} (hg : Local g) (hf : Local f) : Local fun w => g (f w) := by
  intro p b w
  simp only [hf p b w, hg p b (f w)]

theorem Local.andThen {f g : World → World} (hf : Local f) (hg : Local g) :
    Local fun w => (f w).andThen g := by
  intro p b w
  have hthrown : (under p b (f w)).thrown = (f w).thrown := rfl
  simp only [World.andThen, hf p b w, hthrown]
  split_ifs
  · rfl
  · exact hg p b (f w)

theorem local_id : Local fun w => w := fun _ _ _ => rfl

theorem Local.ite {c : World → Prop} [DecidablePred c] {f g : World → World} (hf : Local f) (hg : Local g)
    (hc : ∀ p b w, c (under p b w) ↔ c w) : Local fun w => if c w then f w else g w := by
  intro p b w
  by_cases h : c w
  · simp only [(hc p b w).mpr h, h, if_true, hf p b w]
  · simp only [mt (hc p b w).mp h, h, if_false, hg p b w]

theorem local_queueInLoop (f : Functor) : Local (World.queueInLoop f) := by
  intro p b w
  simp [under, World.queueInLoop]

theorem local_modifyFd (e : Events) : Local (World.modifyFd e) := by
  intro p b w
  unfold World.modifyFd
  cases h : w.interest <;> simp [under, World.throw, h]

theorem local_removeFd : Local World.removeFd := by
  intro p b w
  unfold World.removeFd
  cases h : w.interest <;> simp [under, World.throw, h]

variable (cfg : Config)

theorem local_removeConnectionInLoop : Local World.removeConnectionInLoop :=
  (local_queueInLoop .connectionDestroyed).comp
    (f := fun w => { w with entries := 0, erasures := w.erasures ++ [w.entries] }) fun _ _ _ => rfl

theorem local_removeInLoop :
    Local fun w => { w with removals := w.removals - 1 }.removeConnectionInLoop :=
  local_removeConnectionInLoop.comp (f := fun w => { w with removals := w.removals - 1 }) fun _ _ _ => rfl

theorem local_closeCallback : Local (World.closeCallback cfg) := by
  intro p b w
  unfold World.closeCallback
  cases cfg.closeCallback with
  | none => rfl
  | sameLoop => exact local_removeConnectionInLoop p b w
  | otherLoop => rfl

theorem local_handleClose : Local (World.handleClose cfg) := by
  have hstate : Local fun w => { w with state := .disconnected, closes := w.closes + 1 } := fun _ _ _ => rfl
  exact (local_removeFd.comp hstate).andThen (local_closeCallback cfg)

theorem local_bufferRemaining (data : Bytes) : Local (World.bufferRemaining cfg data) := by
  have hqueue : Local fun w => if cfg.highWaterMark ≤ w.output.readableBytes + data.length ∧
      w.output.readableBytes < cfg.highWaterMark ∧ cfg.highWaterMarkCallback then
        w.queueInLoop (.highWaterMark (w.output.readableBytes + data.length)) else w := by
    refine Local.ite (fun p b w => ?_) local_id fun p b w => Iff.rfl
    exact local_queueInLoop _ p b w
  have happend : Local fun w => { w with output := w.output.append data } := fun _ _ _ => rfl
  have hwhole := (local_modifyFd { read := true, write := true }).comp (happend.comp hqueue)
  intro p b w
  unfold World.bufferRemaining
  split_ifs with hnil
  · rfl
  · exact hwhole p b w

theorem local_sendInLoop (t : ThreadId) (data : Bytes) (r : WriteResult) :
    Local (World.sendInLoop cfg t data r) := by
  have hlog : Local fun w => { w with executed := w.executed ++ [(t, data)] } := fun _ _ _ => rfl
  have hbuffer := local_bufferRemaining cfg
  have hdirect : ∀ {f : World → World}, Local f → Local fun w : World =>
      if w.state = .connected ∧ w.output.readableBytes = 0 then f w else w.bufferRemaining cfg data :=
    fun hf => Local.ite hf (hbuffer data) fun _ _ _ => Iff.rfl
  cases r with
  | wrote n =>
    have hsocket : Local fun w => { w with socket := w.socket ++ [.wrote (data.take n)] } := fun _ _ _ => rfl
    have hcomplete : Local fun w =>
        if data.drop n = [] ∧ cfg.writeCompleteCallback then w.queueInLoop .writeComplete else w :=
      Local.ite (local_queueInLoop _) local_id fun _ _ _ => Iff.rfl
    exact (hdirect ((hbuffer (data.drop n)).comp (hcomplete.comp hsocket))).comp hlog
  | failed e =>
    have hfailed : Local fun w : World =>
        if e = .brokenPipe ∨ e = .connectionReset then w else w.bufferRemaining cfg data :=
      Local.ite local_id (hbuffer data) fun _ _ _ => Iff.rfl
    exact (hdirect hfailed).comp hlog

theorem local_shutdownInLoop : Local World.shutdownInLoop :=
  Local.ite (fun _ _ _ => rfl) local_id fun _ _ _ => Iff.rfl

theorem local_forceCloseInLoop : Local (World.forceCloseInLoop cfg) :=
  Local.ite (local_handleClose cfg) local_id fun _ _ _ => Iff.rfl

theorem local_send (t : ThreadId) (m : Bytes) (r : WriteResult) : Local (World.send cfg t m r) := by
  have hlog : Local fun w => { w with issued := w.issued ++ [(t, m)] } := fun _ _ _ => rfl
  have hdeliver : Local fun w : World => if t = cfg.loopThread then w.sendInLoop cfg t m r
      else w.queueInLoop (.sendInLoop t m) :=
    Local.ite (local_sendInLoop cfg t m r) (local_queueInLoop _) fun _ _ _ => Iff.rfl
  exact Local.ite (hdeliver.comp hlog) local_id fun _ _ _ => Iff.rfl

theorem local_shutdown (t : ThreadId) : Local (World.shutdown cfg t) := by
  have hstate : Local fun w => { w with state := .disconnecting } := fun _ _ _ => rfl
  have hdeliver : Local fun w : World =>
      if t = cfg.loopThread then w.shutdownInLoop else w.queueInLoop .shutdownInLoop :=
    Local.ite local_shutdownInLoop (local_queueInLoop _) fun _ _ _ => Iff.rfl
  exact Local.ite (hdeliver.comp hstate) local_id fun _ _ _ => Iff.rfl

theorem local_forceClose (t : ThreadId) : Local (World.forceClose cfg t) := by
  have hstate : Local fun w => { w with state := .disconnecting } := fun _ _ _ => rfl
  have hdeliver : Local fun w : World =>
      if t = cfg.loopThread then w.forceCloseInLoop cfg else w.queueInLoop .forceCloseInLoop :=
    Local.ite (local_forceCloseInLoop cfg) (local_queueInLoop _) fun _ _ _ => Iff.rfl
  exact Local.ite (hdeliver.comp hstate) local_id fun _ _ _ => Iff.rfl

theorem local_connectionDestroyed : Local (World.connectionDestroyed cfg) :=
  Local.ite (local_handleClose cfg) local_id fun _ _ _ => Iff.rfl

theorem local_doCall (t : ThreadId) (c : Call) : Local fun w => w.doCall cfg t c := by
  cases c with
  | send m r => exact local_send cfg t m r
  | shutdown => exact local_shutdown cfg t
  | forceClose => exact local_forceClose cfg t
  | retrieve len => exact fun _ _ _ => rfl

theorem local_doCalls (cs : List Call) : Local fun w => w.doCalls cfg cs := by
  induction cs with
  | nil => exact local_id
  | cons c cs ih => exact (local_doCall cfg cfg.loopThread c).andThen ih

theorem local_handleRead (r : ReadResult) (cs : List Call) : Local (World.handleRead cfg r cs) := by
  have hinput : Local fun w => { w with input := w.input.readFd r } := fun _ _ _ => rfl
  cases r with
  | failed e => exact (local_handleClose cfg).comp hinput
  | received data =>
    cases data with
    | nil => exact (local_handleClose cfg).comp hinput
    | cons x data => exact (local_doCalls cfg cs).comp hinput

theorem local_outputDrained : Local (World.outputDrained cfg) := by
  have hcomplete : Local fun w : World =>
      if cfg.writeCompleteCallback then w.queueInLoop .writeComplete else w :=
    Local.ite (local_queueInLoop _) local_id fun _ _ _ => Iff.rfl
  have hshutdown : Local fun w : World => if w.state = .disconnecting then w.shutdownInLoop else w :=
    Local.ite local_shutdownInLoop local_id fun _ _ _ => Iff.rfl
  exact (local_modifyFd { read := true }).andThen (hshutdown.comp hcomplete)

theorem local_handleWrite (r : WriteResult) : Local (World.handleWrite cfg r) := by
  refine Local.ite ?_ local_id fun _ _ _ => Iff.rfl
  cases r with
  | failed e => exact local_id
  | wrote n =>
    have hwrite : Local fun w => { w with
      socket := w.socket ++ [.wrote (w.output.readable.take n)]
      output := w.output.writeFd (.wrote (w.output.readable.take n).length) } := fun _ _ _ => rfl
    have hdrained : Local fun w : World => if w.output.readableBytes = 0 then w.outputDrained cfg else w :=
      Local.ite (local_outputDrained cfg) local_id fun _ _ _ => Iff.rfl
    exact Local.ite local_id (hdrained.comp hwrite) fun _ _ _ => Iff.rfl

theorem local_dispatch (e : Events) (r : ReadResult) (cs : List Call) (r' : WriteResult) :
    Local (World.dispatch cfg e r cs r') := by
  have hread : Local fun w : World => if e.read then w.handleRead cfg r cs else w :=
    Local.ite (local_handleRead cfg r cs) local_id fun _ _ _ => Iff.rfl
  have hwrite : Local fun w : World => if e.write then w.handleWrite cfg r' else w :=
    Local.ite (local_handleWrite cfg r') local_id fun _ _ _ => Iff.rfl
  have herror : Local fun w : World => if e.error then w.handleError cfg else w :=
    Local.ite (local_handleClose cfg) local_id fun _ _ _ => Iff.rfl
  exact (hread.andThen hwrite).andThen herror

theorem local_runFunctor (r : WriteResult) (cs : List Call) (f : Functor) :
    Local fun w => w.runFunctor cfg r cs f := by
  cases f with
  | sendInLoop t m => exact local_sendInLoop cfg t m r
  | shutdownInLoop => exact local_shutdownInLoop
  | forceCloseInLoop => exact local_forceCloseInLoop cfg
  | writeComplete => exact local_doCalls cfg cs
  | highWaterMark size => exact local_doCalls cfg cs
  | connectionDestroyed => exact local_connectionDestroyed cfg

end TzzeroHttp.ConnectionQueue
