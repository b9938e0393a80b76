import TzzeroHttp.ConnectionModel

/-! All that sending touches: the output buffer, the socket, the record of sends, the wanted
events, and the tail of the functor queue. A relation that allows each of these holds between
the worlds before and after every operation of the output path. -/
namespace TzzeroHttp.ConnectionSending
open ByteText BufferModel ConnectionModel
open BufferQueue (ByteBuffer)

/-- The functors that sending and writing queue. -/
def OfSending : Functor → Prop
  | .sendInLoop _ _ | .writeComplete | .highWaterMark _ => True
  | .shutdownInLoop | .forceCloseInLoop | .connectionDestroyed => False

/-- A relation that allows whatever one piece of the output path does. -/
structure AllowsSending (R : World → World → Prop) : Prop where
  refl (w : World) : R w w
  trans {w v u : World} (h : R w v) (g : R v u) : R w u
  fields (w : World) (output : ByteBuffer) (socket : List SocketEvent)
    (issued executed : List (ThreadId × Bytes)) :
    R w { w with output := output, socket := socket, issued := issued, executed := executed }
  modifyFd (w : World) (e : Events) : R w (w.modifyFd e)
  queueInLoop (w : World) (f : Functor) (hf : OfSending f) : R w (w.queueInLoop f)

namespace AllowsSending

variable {R : World → World → Prop}

theorem socket (h : AllowsSending R) (w : World) (socket : List SocketEvent) :
    R w { w with socket := socket } := h.fields w w.output socket w.issued w.executed

theorem executed (h : AllowsSending R) (w : World) (executed : List (ThreadId × Bytes)) :
    R w { w with executed := executed } := h.fields w w.output w.socket w.issued executed

theorem andThen (h : AllowsSending R) {w v : World} {f : World → World} (hv : R w v)
    (hf : ∀ u, R u (f u)) : R w (v.andThen f) := by
  unfold World.andThen
  split_ifs
  · exact hv
  · exact h.trans hv (hf v)

theorem bufferRemaining (h : AllowsSending R) (cfg : Config) (w : World) (data : Bytes) :
    R w (w.bufferRemaining cfg data) := by
  have happend : ∀ v : World, R v ({ v with output := w.output.append data }.modifyFd
      { read := true, write := true }) := by
    intro v
    exact h.trans (h.fields v (w.output.append data) v.socket v.issued v.executed) (h.modifyFd _ _)
  unfold World.bufferRemaining
  simp only
  split_ifs
  · exact h.refl w
  · exact h.trans (h.queueInLoop w (.highWaterMark _) trivial) (happend _)
  · exact happend w

theorem sendInLoop (h : AllowsSending R) (cfg : Config) (w : World) (t : ThreadId) (m : Bytes) (r : WriteResult) :
    R w (w.sendInLoop cfg t m r) := by
  have hlog := h.executed w (w.executed ++ [(t, m)])
  unfold World.sendInLoop
  simp only
  split_ifs
  · cases r with
    | wrote n =>
      have hwrote := h.trans hlog (h.socket _ (w.socket ++ [.wrote (m.take n)]))
      simp only
      split_ifs
      · exact h.trans hwrote (h.trans (h.queueInLoop _ .writeComplete trivial) (h.bufferRemaining cfg _ _))
      · exact h.trans hwrote (h.bufferRemaining cfg _ _)
    | failed e =>
      simp only
      split_ifs
      · exact hlog
      · exact h.trans hlog (h.bufferRemaining cfg _ _)
  · exact h.trans hlog (h.bufferRemaining cfg _ _)

theorem send (h : AllowsSending R) (cfg : Config) (w : World) (t : ThreadId) (m : Bytes) (r : WriteResult) :
    R w (w.send cfg t m r) := by
  have hlog := h.fields w w.output w.socket (w.issued ++ [(t, m)]) w.executed
  unfold World.send
  simp only
  split_ifs
  · exact h.trans hlog (h.sendInLoop cfg _ t m r)
  · exact h.trans hlog (h.queueInLoop _ (.sendInLoop t m) trivial)
  · exact h.refl w

theorem shutdownInLoop (h : AllowsSending R) (w : World) : R w w.shutdownInLoop := by
  unfold World.shutdownInLoop
  split_ifs
  · exact h.socket w _
  · exact h.refl w

theorem outputDrained (h : AllowsSending R) (cfg : Config) (w : World) : R w (w.outputDrained cfg) := by
  refine h.andThen (h.modifyFd w _) fun u => ?_
  simp only
  split_ifs
  · exact h.trans (h.queueInLoop u .writeComplete trivial) (h.shutdownInLoop _)
  · exact h.queueInLoop u .writeComplete trivial
  · exact h.shutdownInLoop u
  · exact h.refl u

theorem handleWrite (h : AllowsSending R) (cfg : Config) (w : World) (r : WriteResult) : R w (w.handleWrite cfg r) := by
  unfold World.handleWrite
  split_ifs
  · cases r with
    | failed e => exact h.refl w
    | wrote n =>
      simp only
      split_ifs
      · exact h.refl w
      · exact h.trans (h.fields w _ _ w.issued w.executed) (h.outputDrained cfg _)
      · exact h.fields w _ _ w.issued w.executed
  · exact h.refl w

end AllowsSending

end TzzeroHttp.ConnectionSending
