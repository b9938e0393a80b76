import TzzeroHttp.ConnectionSending

/-! All that the library itself does to a connection: what sending touches, the state and the
books of closing, the registration and the functor queue. A relation that allows each of these
holds between the worlds before and after every operation but a `retrieve`; the input buffer is
what none of them touches. -/
namespace TzzeroHttp.ConnectionFrame
open ByteText BufferModel ConnectionModel ConnectionSending
open BufferQueue (ByteBuffer)

structure AllowsClosing (R : World → World → Prop) : Prop extends AllowsSending R where
  books (w : World) (state : ConnState) (closes entries removals : ℕ) (erasures : List ℕ) :
    R w { w with
      state := state, closes := closes, entries := entries, removals := removals, erasures := erasures }
  removeFd (w : World) : R w w.removeFd
  queueAny (w : World) (f : Functor) : R w (w.queueInLoop f)

namespace AllowsClosing

variable {R : World → World → Prop} {cfg : Config}

theorem removeConnectionInLoop (h : AllowsClosing R) (w : World) : R w w.removeConnectionInLoop :=
  h.trans (h.books w w.state w.closes 0 w.removals (w.erasures ++ [w.entries])) (h.queueAny _ _)

theorem closeCallback (h : AllowsClosing R) (w : World) : R w (w.closeCallback cfg) := by
  unfold World.closeCallback
  cases cfg.closeCallback with
  | none => exact h.refl w
  | sameLoop => exact h.removeConnectionInLoop w
  | otherLoop => exact h.books w w.state w.closes w.entries (w.removals + 1) w.erasures

theorem handleClose (h : AllowsClosing R) (w : World) : R w (w.handleClose cfg) := by
  have hstate := h.books w .disconnected (w.closes + 1) w.entries w.removals w.erasures
  exact h.andThen (h.trans hstate (h.removeFd _)) h.closeCallback

theorem connectionDestroyed (h : AllowsClosing R) (w : World) : R w (w.connectionDestroyed cfg) := by
  unfold World.connectionDestroyed
  split_ifs
  · exact h.handleClose w
  · exact h.refl w

theorem forceCloseInLoop (h : AllowsClosing R) (w : World) : R w (w.forceCloseInLoop cfg) := by
  unfold World.forceCloseInLoop
  split_ifs
  · exact h.handleClose w
  · exact h.refl w

theorem disconnecting (h : AllowsClosing R) (w : World) : R w { w with state := .disconnecting } :=
  h.books w .disconnecting w.closes w.entries w.removals w.erasures

theorem shutdown (h : AllowsClosing R) (w : World) (t : ThreadId) : R w (w.shutdown cfg t) := by
  unfold World.shutdown
  simp only
  split_ifs
  · exact h.trans (h.disconnecting w) (h.shutdownInLoop _)
  · exact h.trans (h.disconnecting w) (h.queueAny _ _)
  · exact h.refl w

theorem forceClose (h : AllowsClosing R) (w : World) (t : ThreadId) : R w (w.forceClose cfg t) := by
  unfold World.forceClose
  simp only
  split_ifs
  · exact h.trans (h.disconnecting w) (h.forceCloseInLoop _)
  · exact h.trans (h.disconnecting w) (h.queueAny _ _)
  · exact h.refl w

theorem doCall (h : AllowsClosing R) (w : World) (t : ThreadId) {c : Call} (hc : ∀ len, c ≠ .retrieve len) :
    R w (w.doCall cfg t c) := by
  cases c with
  | send m r => exact h.send cfg w t m r
  | shutdown => exact h.shutdown w t
  | forceClose => exact h.forceClose w t
  | retrieve len => exact absurd rfl (hc len)

theorem doCalls (h : AllowsClosing R) (w : World) {cs : List Call} (hcs : ∀ c ∈ cs, ∀ len, c ≠ .retrieve len) :
    R w (w.doCalls cfg cs) := by
  induction cs generalizing w with
  | nil => exact h.refl w
  | cons c cs ih =>
    have hc : R w (w.doCall cfg cfg.loopThread c) := h.doCall w _ (hcs c List.mem_cons_self)
    exact h.andThen hc fun v => ih v fun c' hc' => hcs c' (List.mem_cons_of_mem c hc')

theorem runFunctor (h : AllowsClosing R) (w : World) (r : WriteResult) (f : Functor) :
    R w (w.runFunctor cfg r [] f) := by
  cases f with
  | sendInLoop t m => exact h.sendInLoop cfg w t m r
  | shutdownInLoop => exact h.shutdownInLoop w
  | forceCloseInLoop => exact h.forceCloseInLoop w
  | writeComplete => exact h.refl w
  | highWaterMark size => exact h.refl w
  | connectionDestroyed => exact h.connectionDestroyed w

theorem dispatchRest (h : AllowsClosing R) {w v : World} (hv : R w v) (e : Events) (r : WriteResult) :
    R w ((v.andThen fun u => if e.write then u.handleWrite cfg r else u).andThen fun u =>
      if e.error then u.handleError cfg else u) := by
  refine h.andThen (h.andThen hv fun u => ?_) fun u => ?_
  · split_ifs
    · exact h.handleWrite cfg u r
    · exact h.refl u
  · split_ifs
    · exact h.handleClose u
    · exact h.refl u

end AllowsClosing

def SameInput (w v : World) : Prop := v.input = w.input

theorem sameInput_closing : AllowsClosing SameInput where
  refl w := rfl
  trans h g := g.trans h
  fields w output socket issued executed := rfl
  modifyFd w e := by
    unfold SameInput World.modifyFd
    cases w.interest <;> rfl
  queueInLoop w f hf := rfl
  books w state closes entries removals erasures := rfl
  removeFd w := by
    unfold SameInput World.removeFd
    cases w.interest <;> rfl
  queueAny w f := rfl

end TzzeroHttp.ConnectionFrame
