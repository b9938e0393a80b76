import TzzeroHttp.ConnectionSending
import TzzeroHttp.Runs

/-! Closing a connection. While it is open the descriptor is registered, and the first close
takes the registration and the server's entry away; a second one finds neither. The only way
to a second close is a dispatch whose read part closes and whose mask also has ERROR. -/
namespace TzzeroHttp.ConnectionClose
open ByteText BufferModel ConnectionModel ConnectionSending Runs

/-- The part of a world that closing is about; `forced` says that a close is queued. -/
structure Control where
  state : ConnState
  registered : Bool
  closes : ℕ
  entries : ℕ
  removals : ℕ
  erasures : List ℕ
  forced : Bool

def control (w : World) : Control :=
  ⟨w.state, w.interest.isSome, w.closes, w.entries, w.removals, w.erasures,
    decide (.forceCloseInLoop ∈ w.batch ++ w.pending)⟩

/-- A step that leaves the control part alone, and throws only out of `modify_fd`. -/
structure Keeps (w w' : World) : Prop where
  control : control w' = control w
  thrown : w'.thrown = w.thrown ∨ (w.interest.isSome = false ∧ w'.thrown = some .modifyFailed)

theorem Keeps.refl (w : World) : Keeps w w := ⟨rfl, .inl rfl⟩

theorem Keeps.trans {w v u : World} (h : Keeps w v) (g : Keeps v u) : Keeps w u := by
  refine ⟨g.control.trans h.control, ?_⟩
  have hreg : v.interest.isSome = w.interest.isSome := congrArg Control.registered h.control
  rcases g.thrown with hg | ⟨hv, hg⟩
  · rw [hg]
    exact h.thrown
  · exact .inr ⟨hreg ▸ hv, hg⟩

variable {cfg : Config} {w v : World}

theorem keeps_modifyFd (e : Events) : Keeps w (w.modifyFd e) := by
  unfold World.modifyFd
  cases h : w.interest with
  | none => exact ⟨by simp [control, World.throw, h], .inr ⟨by simp [h], rfl⟩⟩
  | some i => exact ⟨by simp [control, h], .inl rfl⟩

theorem keeps_queueInLoop {f : Functor} (hf : f ≠ .forceCloseInLoop) : Keeps w (w.queueInLoop f) := by
  refine ⟨?_, .inl rfl⟩
  simp [control, World.queueInLoop, Ne.symm hf]

theorem keeps_sending : AllowsSending Keeps where
  refl := .refl
  trans := .trans
  fields _ _ _ _ _ := ⟨rfl, .inl rfl⟩
  modifyFd _ := keeps_modifyFd
  queueInLoop _ f hf := by
    refine keeps_queueInLoop fun hforce => ?_
    rw [hforce] at hf
    exact hf

structure Open (w : World) : Prop where
  thrown : w.thrown = none
  state : w.state = .connected ∨ w.state = .disconnecting
  registered : w.interest.isSome = true
  closes : w.closes = 0
  entries : w.entries = 1
  removals : w.removals = 0
  erasures : w.erasures = []
  unforced : w.state = .connected → .forceCloseInLoop ∉ w.batch ++ w.pending

/-- Closed once; the server's entry is there still, or its removal erased exactly it. -/
structure Closed (w : World) : Prop where
  thrown : w.thrown ≠ some .removeFailed
  state : w.state = .disconnected
  registered : w.interest.isSome = false
  closes : w.closes = 1
  registry : (w.entries = 1 ∧ w.erasures = [] ∧ w.removals ≤ 1) ∨
    (w.entries = 0 ∧ w.erasures = [1] ∧ w.removals = 0)

def Orderly (w : World) : Prop := Open w ∨ (Closed w ∧ w.thrown = none)

theorem Orderly.open_or_closed {w : World} (h : Orderly w) : Open w ∨ Closed w := h.imp_right And.left

theorem Orderly.thrown {w : World} (h : Orderly w) : w.thrown = none := by
  rcases h with hw | hw
  · exact hw.thrown
  · exact hw.2

theorem Keeps.open (h : Keeps w v) (hw : Open w) : Open v := by
  have hc := h.control
  simp only [ConnectionClose.control, Control.mk.injEq] at hc
  obtain ⟨hs, hr, hcl, he, hrm, her, hf⟩ := hc
  refine ⟨?_, hs ▸ hw.state, hr.trans hw.registered, hcl.trans hw.closes, he.trans hw.entries,
    hrm.trans hw.removals, her.trans hw.erasures, fun hconn => ?_⟩
  · rcases h.thrown with ht | ⟨hreg, -⟩
    · exact ht.trans hw.thrown
    · rw [hw.registered] at hreg
      cases hreg
  · rw [decide_eq_decide.mp hf]
    exact hw.unforced (hs ▸ hconn)

theorem Keeps.closed (h : Keeps w v) (hw : Closed w) : Closed v := by
  have hc := h.control
  simp only [ConnectionClose.control, Control.mk.injEq] at hc
  obtain ⟨hs, hr, hcl, he, hrm, her, -⟩ := hc
  refine ⟨?_, hs.trans hw.state, hr.trans hw.registered, hcl.trans hw.closes, ?_⟩
  · rcases h.thrown with ht | ⟨-, ht⟩
    · rw [ht]
      exact hw.thrown
    · simp [ht]
  · rw [he, hrm, her]
    exact hw.registry

theorem closeCallback_closed (hthrown : w.thrown = none) (hstate : w.state = .disconnected)
    (hreg : w.interest = none) (hcloses : w.closes = 1) (hentries : w.entries = 1)
    (hremovals : w.removals = 0) (herasures : w.erasures = []) :
    Closed (w.closeCallback cfg) ∧ (w.closeCallback cfg).thrown = none := by
  unfold World.closeCallback
  cases cfg.closeCallback with
  | none => exact ⟨⟨by simp [hthrown], hstate, by simp [hreg], hcloses,
      .inl ⟨hentries, herasures, by simp [hremovals]⟩⟩, hthrown⟩
  | sameLoop => exact ⟨⟨by simp [World.removeConnectionInLoop, World.queueInLoop, hthrown], hstate,
      by simp [World.removeConnectionInLoop, World.queueInLoop, hreg], hcloses,
      .inr ⟨rfl, by simp [World.removeConnectionInLoop, World.queueInLoop, herasures, hentries],
        hremovals⟩⟩, hthrown⟩
  | otherLoop => exact ⟨⟨by simp [hthrown], hstate, by simp [hreg], hcloses,
      .inl ⟨hentries, herasures, by simp [hremovals]⟩⟩, hthrown⟩

theorem handleClose_open (cfg : Config) (hw : Open w) :
    Closed (w.handleClose cfg) ∧ (w.handleClose cfg).thrown = none := by
  obtain ⟨i, hi⟩ := Option.isSome_iff_exists.mp hw.registered
  have hclose : w.handleClose cfg = World.closeCallback cfg
      { w with state := .disconnected, closes := w.closes + 1, interest := none } := by
    simp [World.handleClose, World.andThen, World.removeFd, hi, hw.thrown]
  rw [hclose]
  exact closeCallback_closed hw.thrown rfl rfl (by simp [hw.closes]) hw.entries hw.removals hw.erasures

/-- The second close: the state is set again and `remove_fd` throws. -/
theorem handleClose_closed (hw : Closed w) :
    (w.handleClose cfg).closes = 2 ∧ (w.handleClose cfg).thrown = some .removeFailed ∧
      (w.handleClose cfg).state = .disconnected := by
  have hi : w.interest = none := by simpa using hw.registered
  simp [World.handleClose, World.andThen, World.removeFd, World.throw, hi, hw.closes]

theorem Closed.not_open_state (hw : Closed w) : ¬ (w.state = .connected ∨ w.state = .disconnecting) := by
  simp [hw.state]

theorem forceCloseInLoop_open (hw : Open w) :
    Closed (w.forceCloseInLoop cfg) ∧ (w.forceCloseInLoop cfg).thrown = none := by
  rw [World.forceCloseInLoop, if_pos hw.state]
  exact handleClose_open cfg hw

theorem forceCloseInLoop_closed (hw : Closed w) : w.forceCloseInLoop cfg = w := by
  rw [World.forceCloseInLoop, if_neg hw.not_open_state]

theorem connectionDestroyed_open (hw : Open w) : Orderly (w.connectionDestroyed cfg) := by
  unfold World.connectionDestroyed
  split_ifs
  · exact .inr (handleClose_open cfg hw)
  · exact .inl hw

theorem connectionDestroyed_closed (hw : Closed w) : w.connectionDestroyed cfg = w := by
  simp [World.connectionDestroyed, hw.state]

theorem Open.disconnecting (hw : Open w) : Open { w with state := .disconnecting } :=
  { hw with state := .inr rfl, unforced := by simp }

theorem Open.pop (hw : Open w) {f : Functor} {fs : List Functor} (hbatch : w.batch = f :: fs) :
    Open { w with batch := fs } := by
  refine { hw with unforced := fun hconn hm => hw.unforced hconn ?_ }
  rw [hbatch]
  exact List.mem_cons_of_mem f hm

theorem Open.swap (hw : Open w) (hbatch : w.batch = []) :
    Open { w with batch := w.pending, pending := [] } := by
  have hunforced := hw.unforced
  rw [hbatch] at hunforced
  exact { hw with unforced := by simpa using hunforced }

theorem shutdown_open (hw : Open w) (t : ThreadId) : Open (w.shutdown cfg t) := by
  unfold World.shutdown
  simp only
  split_ifs
  · exact (keeps_sending.shutdownInLoop _).open hw.disconnecting
  · exact (keeps_queueInLoop (by simp)).open hw.disconnecting
  · exact hw

theorem shutdown_closed (hw : Closed w) (t : ThreadId) : w.shutdown cfg t = w := by
  simp [World.shutdown, hw.state]

theorem forceClose_closed (hw : Closed w) (t : ThreadId) : w.forceClose cfg t = w := by
  rw [World.forceClose, if_neg hw.not_open_state]

theorem forceClose_loop_open (cfg : Config) (hw : Open w) :
    Closed (w.forceClose cfg cfg.loopThread) ∧ (w.forceClose cfg cfg.loopThread).thrown = none := by
  rw [World.forceClose, if_pos hw.state, if_pos rfl]
  exact forceCloseInLoop_open hw.disconnecting

theorem doCall_open (hw : Open w) (t : ThreadId) (c : Call) : Orderly (w.doCall cfg t c) := by
  cases c with
  | send m r => exact .inl ((keeps_sending.send cfg w t m r).open hw)
  | shutdown => exact .inl (shutdown_open hw t)
  | forceClose =>
    simp only [World.doCall, World.forceClose, if_pos hw.state]
    split_ifs
    · exact .inr (forceCloseInLoop_open hw.disconnecting)
    · exact .inl { hw.disconnecting with unforced := by simp [World.queueInLoop] }
  | retrieve len => exact .inl { hw with }

theorem doCall_closed (cfg : Config) (hw : Closed w) (t : ThreadId) (c : Call) :
    Closed (w.doCall cfg t c) ∧ (w.doCall cfg t c).thrown = w.thrown := by
  cases c with
  | send m r => simpa [World.doCall, World.send, hw.state] using hw
  | shutdown => simpa [World.doCall, shutdown_closed hw] using hw
  | forceClose => simpa [World.doCall, forceClose_closed hw] using hw
  | retrieve len => exact ⟨{ hw with }, rfl⟩

theorem doCalls_closed (cfg : Config) (hw : Closed w) (hthrown : w.thrown = none) (cs : List Call) :
    Closed (w.doCalls cfg cs) ∧ (w.doCalls cfg cs).thrown = none := by
  induction cs generalizing w with
  | nil => exact ⟨hw, hthrown⟩
  | cons c cs ih =>
    obtain ⟨hc, ht⟩ := doCall_closed cfg hw cfg.loopThread c
    rw [hthrown] at ht
    simp only [World.doCalls, World.andThen, ht, Option.isSome_none, Bool.false_eq_true, if_false]
    exact ih hc ht

/-- A callback on an open connection closes it exactly when it calls `force_close`. -/
theorem doCalls_open (cfg : Config) (hw : Open w) (cs : List Call) :
    (.forceClose ∉ cs → Open (w.doCalls cfg cs)) ∧
      (.forceClose ∈ cs → Closed (w.doCalls cfg cs) ∧ (w.doCalls cfg cs).thrown = none) := by
  induction cs generalizing w with
  | nil => exact ⟨fun _ => hw, by simp⟩
  | cons c cs ih =>
    by_cases hc : c = .forceClose
    · subst hc
      obtain ⟨hclosed, ht⟩ := forceClose_loop_open cfg hw
      have hrest := doCalls_closed cfg hclosed ht cs
      simp only [World.doCalls, World.doCall, World.andThen, ht, Option.isSome_none,
        Bool.false_eq_true, if_false]
      exact ⟨by simp, fun _ => hrest⟩
    · have hopen : Open (w.doCall cfg cfg.loopThread c) := by
        cases c with
        | send m r => exact (keeps_sending.send cfg w _ m r).open hw
        | shutdown => exact shutdown_open hw _
        | forceClose => exact absurd rfl hc
        | retrieve len => exact { hw with }
      simp only [World.doCalls, World.andThen, hopen.thrown, Option.isSome_none,
        Bool.false_eq_true, if_false, List.mem_cons, Ne.symm hc, false_or]
      exact ih hopen

def ReadCloses (r : ReadResult) (cs : List Call) : Prop :=
  match r with
  | .received [] => True
  | .received _ => .forceClose ∈ cs
  | .failed _ => True

theorem handleRead_open (cfg : Config) (hw : Open w) (r : ReadResult) (cs : List Call) :
    (¬ ReadCloses r cs → Open (w.handleRead cfg r cs)) ∧
      (ReadCloses r cs → Closed (w.handleRead cfg r cs) ∧ (w.handleRead cfg r cs).thrown = none) := by
  have hinput : Open { w with input := w.input.readFd r } := { hw with }
  cases r with
  | failed e => exact ⟨fun h => absurd trivial h, fun _ => handleClose_open cfg hinput⟩
  | received data =>
    cases data with
    | nil => exact ⟨fun h => absurd trivial h, fun _ => handleClose_open cfg hinput⟩
    | cons b data => exact doCalls_open cfg hinput cs

def ClosesTwice (e : Events) (r : ReadResult) (cs : List Call) : Prop :=
  e.read = true ∧ e.error = true ∧ ReadCloses r cs

theorem handleWrite_closed (hw : Closed w) (r : WriteResult) : w.handleWrite cfg r = w := by
  simp [World.handleWrite, hw.state]

theorem andThen_eq {f : World → World} (h : w.thrown = none) : w.andThen f = f w := by
  simp [World.andThen, h]

/-- The write and error parts of a dispatch, on a connection its read part left open. -/
theorem dispatch_rest_open (hw : Open w) (e : Events) (r' : WriteResult) :
    let v := (w.andThen fun w => if e.write then w.handleWrite cfg r' else w).andThen fun w =>
      if e.error then w.handleError cfg else w
    Orderly v := by
  have hwrite : Open (if e.write then w.handleWrite cfg r' else w) := by
    split_ifs
    · exact (keeps_sending.handleWrite cfg w r').open hw
    · exact hw
  simp only [andThen_eq hw.thrown, andThen_eq hwrite.thrown]
  by_cases herr : e.error = true
  · rw [if_pos herr]
    exact .inr (handleClose_open cfg hwrite)
  · rw [if_neg herr]
    exact .inl hwrite

theorem dispatch_rest_closed (hw : Closed w) (ht : w.thrown = none) (e : Events) (r' : WriteResult) :
    ((w.andThen fun w => if e.write then w.handleWrite cfg r' else w).andThen fun w =>
      if e.error then w.handleError cfg else w) = if e.error then w.handleClose cfg else w := by
  have hwrite : (if e.write then w.handleWrite cfg r' else w) = w := by
    rw [handleWrite_closed hw]
    simp
  rw [andThen_eq ht, hwrite, andThen_eq ht]
  rfl

/-- An event for a connection that is closed already: it changes nothing but the input buffer,
or it closes again and throws. -/
theorem dispatch_closed (cfg : Config) (hw : Closed w) (ht : w.thrown = none) (e : Events)
    (r : ReadResult) (cs : List Call) (r' : WriteResult) :
    (Closed (w.dispatch cfg e r cs r') ∧ (w.dispatch cfg e r cs r').thrown = none) ∨
      (w.dispatch cfg e r cs r').thrown = some .removeFailed := by
  have hinput : Closed { w with input := w.input.readFd r } := { hw with }
  have hread : (Closed (w.handleRead cfg r cs) ∧ (w.handleRead cfg r cs).thrown = none) ∨
      (w.handleRead cfg r cs).thrown = some .removeFailed := by
    cases r with
    | failed err => exact .inr (handleClose_closed hinput).2.1
    | received data =>
      cases data with
      | nil => exact .inr (handleClose_closed hinput).2.1
      | cons b data => exact .inl (doCalls_closed cfg hinput ht cs)
  have hrest : ∀ v : World, (Closed v ∧ v.thrown = none) ∨ v.thrown = some .removeFailed →
      let u := (v.andThen fun w => if e.write then w.handleWrite cfg r' else w).andThen fun w =>
        if e.error then w.handleError cfg else w
      (Closed u ∧ u.thrown = none) ∨ u.thrown = some .removeFailed := by
    rintro v (⟨hv, hthrown⟩ | hthrown)
    · simp only [dispatch_rest_closed hv hthrown e r']
      split_ifs
      · exact .inr (handleClose_closed hv).2.1
      · exact .inl ⟨hv, hthrown⟩
    · exact .inr (by simp [World.andThen, hthrown])
  refine hrest _ ?_
  split_ifs
  · exact hread
  · exact .inl ⟨hw, ht⟩

theorem dispatch_open (cfg : Config) (hw : Open w) (e : Events) (r : ReadResult) (cs : List Call)
    (r' : WriteResult) :
    (¬ ClosesTwice e r cs → Orderly (w.dispatch cfg e r cs r')) ∧
      (ClosesTwice e r cs → (w.dispatch cfg e r cs r').closes = 2 ∧
        (w.dispatch cfg e r cs r').thrown = some .removeFailed ∧
        (w.dispatch cfg e r cs r').state = .disconnected) := by
  unfold World.dispatch
  obtain ⟨hstay, hclose⟩ := handleRead_open cfg hw r cs
  by_cases hread : e.read = true
  · simp only [if_pos hread]
    by_cases hcl : ReadCloses r cs
    · obtain ⟨hclosed, ht⟩ := hclose hcl
      rw [dispatch_rest_closed hclosed ht e r']
      by_cases herr : e.error = true
      · rw [if_pos herr]
        exact ⟨fun h => absurd ⟨hread, herr, hcl⟩ h, fun _ => handleClose_closed hclosed⟩
      · rw [if_neg herr]
        exact ⟨fun _ => .inr ⟨hclosed, ht⟩, fun h => absurd h.2.1 herr⟩
    · exact ⟨fun _ => dispatch_rest_open (hstay hcl) e r', fun h => absurd h.2.2 hcl⟩
  · simp only [if_neg hread]
    exact ⟨fun _ => dispatch_rest_open hw e r', fun h => absurd h.1 hread⟩

theorem runFunctor_open (hw : Open w) (r : WriteResult) (cs : List Call) (f : Functor) :
    Orderly (w.runFunctor cfg r cs f) := by
  have hcalls : Orderly (w.doCalls cfg cs) := by
    obtain ⟨hstay, hclose⟩ := doCalls_open cfg hw cs
    by_cases h : .forceClose ∈ cs
    · exact .inr (hclose h)
    · exact .inl (hstay h)
  cases f with
  | sendInLoop t m => exact .inl ((keeps_sending.sendInLoop cfg w t m r).open hw)
  | shutdownInLoop => exact .inl ((keeps_sending.shutdownInLoop _).open hw)
  | forceCloseInLoop => exact .inr (forceCloseInLoop_open hw)
  | writeComplete => exact hcalls
  | highWaterMark size => exact hcalls
  | connectionDestroyed => exact connectionDestroyed_open hw

theorem runFunctor_closed (hw : Closed w) (ht : w.thrown = none) (r : WriteResult) (cs : List Call)
    (f : Functor) : Closed (w.runFunctor cfg r cs f) := by
  cases f with
  | sendInLoop t m => exact (keeps_sending.sendInLoop cfg w t m r).closed hw
  | shutdownInLoop => exact (keeps_sending.shutdownInLoop _).closed hw
  | forceCloseInLoop =>
    rw [World.runFunctor, forceCloseInLoop_closed hw]
    exact hw
  | writeComplete => exact (doCalls_closed cfg hw ht cs).1
  | highWaterMark size => exact (doCalls_closed cfg hw ht cs).1
  | connectionDestroyed =>
    rw [World.runFunctor, connectionDestroyed_closed hw]
    exact hw

theorem removeInLoop_closed (hw : Closed w) (hremovals : 0 < w.removals) :
    Closed ({ w with removals := w.removals - 1 }.removeConnectionInLoop) := by
  rcases hw.registry with ⟨hentries, herasures, hle⟩ | ⟨-, -, hzero⟩
  · exact ⟨hw.thrown, hw.state, hw.registered, hw.closes, .inr ⟨rfl,
      by simp [World.removeConnectionInLoop, World.queueInLoop, herasures, hentries],
      by simp [World.removeConnectionInLoop, World.queueInLoop]; omega⟩⟩
  · omega

def Separate : Act → Prop
  | .dispatch e r cs _ => ¬ ClosesTwice e r cs
  | _ => True

/-- What one move does to an open or closed connection. -/
theorem step_control {a : Act} {w' : World} (h : Open w ∨ Closed w) (hstep : step cfg w a = some w') :
    (Separate a → Open w' ∨ Closed w') ∧
      (¬ Separate a →
        w'.closes = 2 ∧ w'.thrown = some .removeFailed ∧ w'.state = .disconnected) := by
  obtain ⟨hthrown, hmove⟩ := step_move hstep
  cases hmove with
  | call t c =>
    refine ⟨fun _ => ?_, fun hs => absurd trivial hs⟩
    rcases h with hw | hw
    · exact (doCall_open hw t c).open_or_closed
    · exact .inr (doCall_closed cfg hw t c).1
  | swapFunctors hbatch =>
    refine ⟨fun _ => ?_, fun hs => absurd trivial hs⟩
    rcases h with hw | hw
    · exact .inl (hw.swap hbatch)
    · exact .inr { hw with }
  | runFunctor r cs f fs hbatch =>
    refine ⟨fun _ => ?_, fun hs => absurd trivial hs⟩
    rcases h with hw | hw
    · exact (runFunctor_open (hw.pop hbatch) r cs f).open_or_closed
    · exact .inr (runFunctor_closed (w := { w with batch := fs }) { hw with } hthrown r cs f)
  | dispatch e r cs r' hinterest hbatch =>
    rcases h with hw | hw
    · obtain ⟨hsep, htwice⟩ := dispatch_open cfg hw e r cs r'
      exact ⟨fun hs => (hsep hs).open_or_closed, fun hs => htwice (not_not.mp hs)⟩
    · simp [hw.registered] at hinterest
  | connectionDestroyed =>
    refine ⟨fun _ => ?_, fun hs => absurd trivial hs⟩
    rcases h with hw | hw
    · exact (connectionDestroyed_open hw).open_or_closed
    · rw [connectionDestroyed_closed hw]
      exact .inr hw
  | removeInLoop hremovals =>
    refine ⟨fun _ => ?_, fun hs => absurd trivial hs⟩
    rcases h with hw | hw
    · rw [hw.removals] at hremovals
      exact absurd hremovals (lt_irrefl 0)
    · exact .inr (removeInLoop_closed hw hremovals)

theorem established_open (initial : ℕ) : Open (established initial) :=
  ⟨rfl, .inl rfl, rfl, rfl, rfl, rfl, rfl, fun _ => List.not_mem_nil⟩

/-- Closed at most once, no `remove_fd` of an unregistered descriptor, and every removal from
the server's table erased one entry. -/
def ClosedOnce (w : World) : Prop :=
  w.closes ≤ 1 ∧ w.thrown ≠ some .removeFailed ∧ ∀ n ∈ w.erasures, n = 1

theorem closedOnce_of_control (h : Open w ∨ Closed w) : ClosedOnce w := by
  rcases h with hw | hw
  · refine ⟨by rw [hw.closes]; omega, by simp [hw.thrown], by simp [hw.erasures]⟩
  · refine ⟨hw.closes.le, hw.thrown, ?_⟩
    rcases hw.registry with ⟨-, he, -⟩ | ⟨-, he, -⟩ <;> simp [he]

theorem run_control {w₀ : World} {acts : List Act} (h : Open w₀ ∨ Closed w₀)
    (hrun : run (step cfg) w₀ acts = some w) :
    ((∀ a ∈ acts, Separate a) → Open w ∨ Closed w) ∧
      ((∃ a ∈ acts, ¬ Separate a) → w.closes = 2 ∧ w.state = .disconnected) := by
  induction acts generalizing w₀ with
  | nil =>
    obtain rfl := Option.some.inj hrun
    exact ⟨fun _ => h, by simp⟩
  | cons a acts ih =>
    obtain ⟨w₁, hstep, hrest⟩ := run_cons.mp hrun
    obtain ⟨hsep, htwice⟩ := step_control h hstep
    by_cases ha : Separate a
    · obtain ⟨hall, hex⟩ := ih (hsep ha) hrest
      refine ⟨fun hacts => hall fun b hb => hacts b (by simp [hb]), ?_⟩
      rintro ⟨b, hb, hnot⟩
      rcases List.mem_cons.mp hb with rfl | hb
      · exact absurd ha hnot
      · exact hex ⟨b, hb, hnot⟩
    · obtain ⟨hcloses, hthrown, hstate⟩ := htwice ha
      refine ⟨fun hacts => absurd (hacts a (by simp)) ha, fun _ => ?_⟩
      cases acts with
      | nil =>
        obtain rfl := Option.some.inj hrest
        exact ⟨hcloses, hstate⟩
      | cons b acts =>
        obtain ⟨w₂, hstep', -⟩ := run_cons.mp hrest
        rw [(step_move hstep').1] at hthrown
        cases hthrown

theorem open_of_connected {initial : ℕ} {acts : List Act}
    (hrun : run (step cfg) (established initial) acts = some w) (hconn : w.state = .connected) :
    Open w := by
  obtain ⟨hall, hex⟩ := run_control (.inl (established_open initial)) hrun
  by_cases hsep : ∀ a ∈ acts, Separate a
  · refine (hall hsep).resolve_right fun hclosed => ?_
    rw [hclosed.state] at hconn
    cases hconn
  · have hdown := (hex (by simpa using hsep)).2
    rw [hdown] at hconn
    cases hconn

/-- Over every run, a connection is closed at most once exactly when no dispatch both closes
in its read part and reports an error. -/
theorem closed_once_iff (cfg : Config) (initial : ℕ) (acts : List Act) (w : World)
    (hrun : run (step cfg) (established initial) acts = some w) :
    ClosedOnce w ↔ ∀ a ∈ acts, Separate a := by
  obtain ⟨hall, hex⟩ := run_control (.inl (established_open initial)) hrun
  refine ⟨fun hone a ha => ?_, fun h => closedOnce_of_control (hall h)⟩
  by_contra hnot
  have htwo := (hex ⟨a, ha, hnot⟩).1
  have hle := hone.1
  omega

/-- A read that is answered, the end of the stream, and the queued removal. -/
theorem closed_once_peer_gone :
    ∃ w, run (step {}) (established 64)
        [.dispatch { read := true } (.received [1]) [.send [7] (.wrote 1)] (.wrote 0),
          .dispatch { read := true, write := true } (.received []) [] (.wrote 0),
          .swapFunctors, .runFunctor (.wrote 0) []] = some w ∧ ClosedOnce w := by
  obtain ⟨w, hw⟩ := Option.isSome_iff_exists.mp (show (run (step {}) (established 64)
    [.dispatch { read := true } (.received [1]) [.send [7] (.wrote 1)] (.wrote 0),
      .dispatch { read := true, write := true } (.received []) [] (.wrote 0),
      .swapFunctors, .runFunctor (.wrote 0) []]).isSome by decide)
  exact ⟨w, hw, (closed_once_iff {} 64 _ w hw).mpr (by simp [Separate, ClosesTwice])⟩

/-- A peer reset reported as READ and ERROR together: the read sees the end of the stream and
closes, then the error part closes again. -/
theorem closed_twice_on_reset :
    ¬ ∀ (cfg : Config) (initial : ℕ) (acts : List Act) (w : World),
      run (step cfg) (established initial) acts = some w → ClosedOnce w := by
  intro h
  let acts : List Act := [.dispatch { read := true, error := true } (.received []) [] (.wrote 0)]
  have htwo : (run (step {}) (established 64) acts).map World.closes = some 2 := by decide
  obtain ⟨w, hw, hcloses⟩ := Option.map_eq_some_iff.mp htwo
  have hle := (h {} 64 acts w hw).1
  omega

end TzzeroHttp.ConnectionClose
