import TzzeroHttp.ConnectionClose
import TzzeroHttp.ConnectionInterest

/-! Results that pass. `handle_write` and `send_in_loop` carry on after a `write` that fails
with EAGAIN, EWOULDBLOCK or EINTR. `handle_read` does not look at the value: every failed read
closes the connection. -/
namespace TzzeroHttp.ConnectionTransient
open ByteText BufferModel ConnectionModel ConnectionClose ConnectionSending Runs
open ConnectionInterest (stepAny stepAny_cases advance_stepAny rank)

def Passing (e : Errno) : Prop := e = .wouldBlock ∨ e = .interrupted

def TransientRead : ReadResult → Prop
  | .received data => data ≠ []
  | .failed e => Passing e

def TransientWrite : WriteResult → Prop
  | .wrote _ => True
  | .failed e => Passing e

def OpenCall : Call → Prop
  | .send _ r => TransientWrite r
  | .retrieve _ => True
  | .shutdown | .forceClose => False

/-- A move without a close operation, without ERROR, and whose reads and writes give transient
results only. -/
def Transient : Act → Prop
  | .call _ c => OpenCall c
  | .runFunctor r cs => TransientWrite r ∧ ∀ c ∈ cs, OpenCall c
  | .dispatch e r cs r' =>
    e.error = false ∧ (e.read = true → TransientRead r) ∧ (∀ c ∈ cs, OpenCall c) ∧
      (e.write = true → TransientWrite r')
  | .swapFunctors | .removeInLoop => True
  | .connectionDestroyed => False

def Reads : Act → Prop
  | .dispatch e (.failed _) _ _ => e.read = false
  | _ => True

def readBy : Act → Bytes
  | .dispatch e (.received data) _ _ => if e.read then data else []
  | _ => []

def takenFrom (input : Bytes) : List Call → Bytes
  | [] => []
  | .retrieve len :: cs => input.take len ++ takenFrom (input.drop len) cs
  | _ :: cs => takenFrom input cs

/-- What the move takes out of the input buffer, after it has read. -/
def takenBy (w : World) : Act → Bytes
  | .call _ c => takenFrom w.input.readable [c]
  | .runFunctor _ cs =>
    match w.batch with
    | .writeComplete :: _ | .highWaterMark _ :: _ => takenFrom w.input.readable cs
    | _ => []
  | .dispatch e (.received data) cs _ => if e.read then takenFrom (w.input.readable ++ data) cs else []
  | _ => []

/-- All that a run takes out of the input buffer, in order. -/
def taken (cfg : Config) : World → List Act → Bytes
  | _, [] => []
  | w, a :: acts => takenBy w a ++ (stepAny cfg w a).elim [] fun w' => taken cfg w' acts

/-- A run from `w₀` to `w` that leaves the connection up and delivers what it reads: the bytes
that the callbacks have taken, with those still in their buffer, are the bytes read. -/
structure Undisturbed (cfg : Config) (w₀ : World) (acts : List Act) (w : World) : Prop where
  state : w.state = .connected
  registered : w.interest.isSome = true
  delivered : taken cfg w₀ acts ++ w.input.readable = acts.flatMap readBy

structure Quiet (w v : World) : Prop where
  input : v.input = w.input
  destroys : .connectionDestroyed ∈ v.batch ++ v.pending → .connectionDestroyed ∈ w.batch ++ w.pending

theorem quiet_sending : AllowsSending Quiet where
  refl _ := ⟨rfl, id⟩
  trans h g := ⟨g.input.trans h.input, fun hd => h.destroys (g.destroys hd)⟩
  fields _ _ _ _ _ := ⟨rfl, id⟩
  modifyFd w e := by
    unfold World.modifyFd
    cases w.interest <;> exact ⟨rfl, id⟩
  queueInLoop w f hf := by
    refine ⟨rfl, fun hd => ?_⟩
    have hne : Functor.connectionDestroyed ≠ f := by
      intro h
      rw [← h] at hf
      exact hf
    simpa [World.queueInLoop, hne] using hd

structure Live (w : World) : Prop where
  isOpen : Open w
  state : w.state = .connected
  kept : .connectionDestroyed ∉ w.batch ++ w.pending

variable {cfg : Config} {w v : World}

/-- Whatever the output path does keeps a connection live, and its input as it is. -/
theorem Live.sending (hw : Live w) (h : ∀ R, AllowsSending R → R w v) :
    Live v ∧ v.input = w.input := by
  have hkeeps := h Keeps keeps_sending
  have hquiet := h Quiet quiet_sending
  have hstate : v.state = w.state := congrArg Control.state hkeeps.control
  exact ⟨⟨hkeeps.open hw.isOpen, hstate.trans hw.state, fun hd => hw.kept (hquiet.destroys hd)⟩,
    hquiet.input⟩

theorem Live.registered (hw : Live w) : w.interest.isSome = true := hw.isOpen.registered

theorem doCall_live (cfg : Config) (hw : Live w) (t : ThreadId) {c : Call} (hc : OpenCall c) :
    Live (w.doCall cfg t c) ∧
      takenFrom w.input.readable [c] ++ (w.doCall cfg t c).input.readable = w.input.readable := by
  cases c with
  | send m r =>
    obtain ⟨hlive, hinput⟩ := hw.sending fun R hR => hR.send cfg w t m r
    exact ⟨hlive, by simp [takenFrom, World.doCall, hinput]⟩
  | retrieve len => exact ⟨{ isOpen := { hw.isOpen with }, state := hw.state, kept := hw.kept },
      by simp [takenFrom, World.doCall]⟩
  | shutdown => exact absurd hc id
  | forceClose => exact absurd hc id

theorem takenFrom_cons {input rest : Bytes} {c : Call} (h : takenFrom input [c] ++ rest = input)
    (cs : List Call) : takenFrom input (c :: cs) = takenFrom input [c] ++ takenFrom rest cs := by
  cases c with
  | retrieve len =>
    have hsplit : input.take len ++ rest = input.take len ++ input.drop len := by
      rw [List.take_append_drop]
      simpa [takenFrom] using h
    simp [takenFrom, List.append_cancel_left hsplit]
  | _ =>
    have hrest : rest = input := by simpa [takenFrom] using h
    simp [takenFrom, hrest]

theorem doCalls_live (cfg : Config) (hw : Live w) {cs : List Call} (hcs : ∀ c ∈ cs, OpenCall c) :
    Live (w.doCalls cfg cs) ∧
      takenFrom w.input.readable cs ++ (w.doCalls cfg cs).input.readable = w.input.readable := by
  induction cs generalizing w with
  | nil => exact ⟨hw, rfl⟩
  | cons c cs ih =>
    obtain ⟨hlive, hinput⟩ := doCall_live cfg hw cfg.loopThread (hcs c (by simp))
    obtain ⟨hend, hrest⟩ := ih hlive fun d hd => hcs d (by simp [hd])
    rw [World.doCalls, andThen_eq hlive.isOpen.thrown, takenFrom_cons hinput cs, List.append_assoc, hrest]
    exact ⟨hend, hinput⟩

theorem handleRead_live (cfg : Config) (hw : Live w) {data : Bytes} (hdata : data ≠ []) {cs : List Call}
    (hcs : ∀ c ∈ cs, OpenCall c) :
    Live (w.handleRead cfg (.received data) cs) ∧
      takenFrom (w.input.readable ++ data) cs ++
        (w.handleRead cfg (.received data) cs).input.readable = w.input.readable ++ data := by
  have hread : Live { w with input := w.input.readFd (.received data) } :=
    { isOpen := { hw.isOpen with }, state := hw.state, kept := hw.kept }
  have hcalls := doCalls_live cfg hread hcs
  cases data with
  | nil => exact absurd rfl hdata
  | cons b data => simpa [World.handleRead] using hcalls

theorem readPart_live (cfg : Config) (hw : Live w) {e : Events} {r : ReadResult} {cs : List Call} {r' : WriteResult}
    (ha : Transient (.dispatch e r cs r')) (hreads : Reads (.dispatch e r cs r')) :
    Live (if e.read then w.handleRead cfg r cs else w) ∧
      takenBy w (.dispatch e r cs r') ++ (if e.read then w.handleRead cfg r cs else w).input.readable =
        w.input.readable ++ readBy (.dispatch e r cs r') := by
  obtain ⟨-, hread, hcs, -⟩ := ha
  by_cases he : e.read = true
  · cases r with
    | received data => simpa [he, takenBy, readBy] using handleRead_live cfg hw (hread he) hcs
    | failed err => simp [Reads, he] at hreads
  · cases r <;> simpa [he, takenBy, readBy] using hw

theorem writePart_live (cfg : Config) (hw : Live w) (e : Events) (r' : WriteResult) :
    Live (if e.write then w.handleWrite cfg r' else w) ∧
      (if e.write then w.handleWrite cfg r' else w).input = w.input := by
  split_ifs
  · exact hw.sending fun R hR => hR.handleWrite cfg w r'
  · exact ⟨hw, rfl⟩

theorem dispatch_live (cfg : Config) (hw : Live w) {e : Events} {r : ReadResult} {cs : List Call} {r' : WriteResult}
    (ha : Transient (.dispatch e r cs r')) (hreads : Reads (.dispatch e r cs r')) :
    Live (w.dispatch cfg e r cs r') ∧
      takenBy w (.dispatch e r cs r') ++ (w.dispatch cfg e r cs r').input.readable =
        w.input.readable ++ readBy (.dispatch e r cs r') := by
  obtain ⟨hread, hdelivered⟩ := readPart_live cfg hw ha hreads
  obtain ⟨hwrite, hinput⟩ := writePart_live cfg hread e r'
  have herror : ¬ e.error = true := by simp [ha.1]
  unfold World.dispatch
  rw [andThen_eq hread.isOpen.thrown, andThen_eq hwrite.isOpen.thrown, if_neg herror, hinput]
  exact ⟨hwrite, hdelivered⟩

/-- A failed read closes the connection, whatever its `errno`. -/
theorem dispatch_failed (hw : Open w) {e : Events} (herror : e.error = false) (hread : e.read = true)
    (err : Errno) (cs : List Call) (r' : WriteResult) :
    (w.dispatch cfg e (.failed err) cs r').state = .disconnected := by
  obtain ⟨hclosed, hthrown⟩ := (handleRead_open cfg hw (.failed err) cs).2 trivial
  unfold World.dispatch
  rw [if_pos hread, dispatch_rest_closed hclosed hthrown, if_neg (by simp [herror])]
  exact hclosed.state

theorem runFunctor_live (cfg : Config) (hw : Live w) (r : WriteResult) {cs : List Call} {f : Functor} {fs : List Functor}
    (hbatch : w.batch = f :: fs) (hcs : ∀ c ∈ cs, OpenCall c) :
    Live ({ w with batch := fs }.runFunctor cfg r cs f) ∧
      takenBy w (.runFunctor r cs) ++ ({ w with batch := fs }.runFunctor cfg r cs f).input.readable =
        w.input.readable := by
  have hpop : Live { w with batch := fs } := by
    refine { isOpen := hw.isOpen.pop hbatch, state := hw.state, kept := fun hd => hw.kept ?_ }
    rw [hbatch]
    exact List.mem_cons_of_mem f hd
  have hcalls := doCalls_live cfg hpop hcs
  cases f with
  | sendInLoop t m =>
    obtain ⟨hlive, hinput⟩ := hpop.sending fun R hR => hR.sendInLoop cfg _ t m r
    exact ⟨hlive, by simp [takenBy, hbatch, World.runFunctor, hinput]⟩
  | shutdownInLoop =>
    obtain ⟨hlive, hinput⟩ := hpop.sending fun R hR => hR.shutdownInLoop _
    exact ⟨hlive, by simp [takenBy, hbatch, World.runFunctor, hinput]⟩
  | forceCloseInLoop =>
    have hforced := hw.isOpen.unforced hw.state
    simp [hbatch] at hforced
  | writeComplete => simpa [takenBy, hbatch, World.runFunctor] using hcalls
  | highWaterMark size => simpa [takenBy, hbatch, World.runFunctor] using hcalls
  | connectionDestroyed =>
    have hkept := hw.kept
    simp [hbatch] at hkept

theorem step_live {a : Act} (hw : Live w) (ha : Transient a) (hstep : step cfg w a = some v) :
    (Reads a → Live v ∧ takenBy w a ++ v.input.readable = w.input.readable ++ readBy a) ∧
      (¬ Reads a → v.state = .disconnected) := by
  cases (step_move hstep).2 with
  | call t c =>
    have hcall := doCall_live cfg hw t ha
    exact ⟨fun _ => by simpa [takenBy, readBy] using hcall, fun h => absurd trivial h⟩
  | swapFunctors hbatch =>
    refine ⟨fun _ => ⟨?_, by simp [takenBy, readBy]⟩, fun h => absurd trivial h⟩
    have hkept := hw.kept
    rw [hbatch] at hkept
    exact { isOpen := hw.isOpen.swap hbatch, state := hw.state, kept := by simpa using hkept }
  | runFunctor r cs f fs hbatch =>
    have hrun := runFunctor_live cfg hw r hbatch ha.2
    exact ⟨fun _ => by simpa [readBy] using hrun, fun h => absurd trivial h⟩
  | dispatch e r cs r' hinterest hbatch =>
    refine ⟨fun hreads => dispatch_live cfg hw ha hreads, fun hfails => ?_⟩
    cases r with
    | received data => exact absurd trivial hfails
    | failed err => exact dispatch_failed hw.isOpen ha.1 (by simpa [Reads] using hfails) err cs r'
  | connectionDestroyed => exact absurd ha id
  | removeInLoop hremovals =>
    -- only a close asks the server's loop for a removal
    rw [hw.isOpen.removals] at hremovals
    exact absurd hremovals (lt_irrefl 0)

theorem stepAny_live {a : Act} (hw : Live w) (hstep : stepAny cfg w a = some v) :
    step cfg w a = some v := by
  rcases stepAny_cases hstep with h | ⟨e, r, cs, r', rfl, hreg, -, -⟩
  · exact h
  · have hsome := hw.registered
    rw [hreg] at hsome
    cases hsome

theorem disconnected_stays {acts : List Act} (hw : w.state = .disconnected)
    (hrun : run (stepAny cfg) w acts = some v) : v.state = .disconnected := by
  have hstep : ∀ (u : World) (a : Act) (u' : World), u.state = .disconnected →
      stepAny cfg u a = some u' → u'.state = .disconnected := by
    intro u a u' hu hstep
    have hforward := (advance_stepAny hstep).forward
    rw [hu] at hforward
    cases hstate : u'.state <;> simp [hstate, rank] at hforward ⊢
  exact run_preserves hstep hw hrun

theorem run_live {w₀ : World} {acts : List Act} (hw : Live w₀) (hacts : ∀ a ∈ acts, Transient a)
    (hrun : run (stepAny cfg) w₀ acts = some w) :
    ((∀ a ∈ acts, Reads a) → Live w ∧
        taken cfg w₀ acts ++ w.input.readable = w₀.input.readable ++ acts.flatMap readBy) ∧
      ((∃ a ∈ acts, ¬ Reads a) → w.state = .disconnected) := by
  induction acts generalizing w₀ with
  | nil =>
    obtain rfl := Option.some.inj hrun
    exact ⟨fun _ => ⟨hw, by simp [taken]⟩, by simp⟩
  | cons a acts ih =>
    obtain ⟨w₁, hany, hrest⟩ := run_cons.mp hrun
    obtain ⟨hgood, hbad⟩ := step_live hw (hacts a (by simp)) (stepAny_live hw hany)
    by_cases ha : Reads a
    · obtain ⟨hlive, hstep⟩ := hgood ha
      obtain ⟨hall, hex⟩ := ih hlive (fun b hb => hacts b (by simp [hb])) hrest
      constructor
      · intro hreads
        obtain ⟨hend, hdelivered⟩ := hall fun b hb => hreads b (by simp [hb])
        refine ⟨hend, ?_⟩
        simp only [taken, hany, Option.elim_some, List.flatMap_cons]
        rw [List.append_assoc, hdelivered, ← List.append_assoc, hstep, List.append_assoc]
      · rintro ⟨b, hb, hfails⟩
        rcases List.mem_cons.mp hb with rfl | hb
        · exact absurd ha hfails
        · exact hex ⟨b, hb, hfails⟩
    · exact ⟨fun hreads => absurd (hreads a (by simp)) ha,
        fun _ => disconnected_stays (hbad ha) hrest⟩

theorem established_live (initial : ℕ) : Live (established initial) :=
  ⟨established_open initial, rfl, List.not_mem_nil⟩

/-- Over every run with transient results only and no close operation: the connection stays
CONNECTED and registered and delivers every byte once and in order exactly when no read fails. -/
theorem undisturbed_iff (cfg : Config) (initial : ℕ) (acts : List Act) (w : World)
    (hacts : ∀ a ∈ acts, Transient a) (hrun : run (stepAny cfg) (established initial) acts = some w) :
    Undisturbed cfg (established initial) acts w ↔ ∀ a ∈ acts, Reads a := by
  obtain ⟨hall, hex⟩ := run_live (established_live initial) hacts hrun
  constructor
  · intro hup
    by_contra hnot
    have hdown := hex (by simpa using hnot)
    rw [hup.state] at hdown
    cases hdown
  · intro hreads
    obtain ⟨hlive, hdelivered⟩ := hall hreads
    refine ⟨hlive.state, hlive.registered, hdelivered.trans ?_⟩
    simp [established, World.connectionEstablished, World.addFd]

/-- Two reads around a write that would block and a spurious write event; the first callback
takes one byte and answers. -/
theorem undisturbed_would_block :
    let acts : List Act := [
      .dispatch { read := true } (.received [1, 2]) [.retrieve 1, .send [7] (.failed .wouldBlock)]
        (.wrote 0),
      .dispatch { write := true } (.failed .wouldBlock) [] (.failed .interrupted),
      .dispatch { read := true, write := true } (.received [3]) [] (.wrote 1)]
    ∃ w, run (stepAny {}) (established 4) acts = some w ∧
      Undisturbed {} (established 4) acts w := by
  intro acts
  have hruns : (run (stepAny {}) (established 4) acts).isSome := by decide
  obtain ⟨w, hw⟩ := Option.isSome_iff_exists.mp hruns
  have hacts : ∀ a ∈ acts, Transient a := by
    simp [acts, Transient, TransientRead, TransientWrite, OpenCall, Passing]
  exact ⟨w, hw, (undisturbed_iff {} 4 acts w hacts hw).mpr (by simp [acts, Reads])⟩

/-- A spurious wake-up: the read finds nothing and fails with EAGAIN. -/
theorem disturbed_by_wouldBlock :
    ¬ ∀ (cfg : Config) (initial : ℕ) (acts : List Act) (w : World),
      (∀ a ∈ acts, Transient a) → run (stepAny cfg) (established initial) acts = some w →
        Undisturbed cfg (established initial) acts w := by
  intro h
  let acts : List Act := [.dispatch { read := true } (.failed .wouldBlock) [] (.wrote 0)]
  have hacts : ∀ a ∈ acts, Transient a := by
    simp [acts, Transient, TransientRead, TransientWrite, Passing]
  have hdown : (run (stepAny {}) (established 64) acts).map World.state = some .disconnected := by decide
  obtain ⟨w, hw, hstate⟩ := Option.map_eq_some_iff.mp hdown
  have hup := (h {} 64 acts w hacts hw).state
  rw [hstate] at hup
  cases hup

end TzzeroHttp.ConnectionTransient
