import TzzeroHttp.ConnectionClose
import TzzeroHttp.ConnectionInterest

/-! Sends that come late. `send` tests the state when it is called, and the functor it queues
from another thread does not test it again: on a connection closed in between, `send_in_loop`
puts the message into the output buffer and asks the poller for WRITE on a descriptor that is
no longer registered. Only an empty message passes without harm. -/
namespace TzzeroHttp.ConnectionLateSend
open ByteText BufferModel ConnectionModel ConnectionClose Runs
open ConnectionInterest (stepAny stepAny_cases)

/-- The thread and message of a `send_in_loop` functor that the move runs after the close. -/
def lateSend (w : World) : Act → Option (ThreadId × Bytes)
  | .runFunctor _ _ =>
    match w.batch with
    | .sendInLoop t m :: _ => if w.state = .disconnected then some (t, m) else none
    | _ => none
  | _ => none

/-- A late send leaves connection and poller as they are: it is taken off the batch and
recorded, nothing else. -/
def LateHarmless (cfg : Config) (w : World) (a : Act) : Prop :=
  ∀ late ∈ lateSend w a, ∀ w' ∈ stepAny cfg w a,
    w' = { w with batch := w.batch.tail, executed := w.executed ++ [late] }

def Prompt (w : World) (a : Act) : Prop := ∀ late ∈ lateSend w a, late.2 = []

instance (w : World) (a : Act) : Decidable (Prompt w a) :=
  inferInstanceAs (Decidable (∀ late ∈ lateSend w a, late.2 = []))

variable {cfg : Config} {w w' : World} {a : Act}

theorem lateSend_eq {late : ThreadId × Bytes} (h : lateSend w a = some late) :
    w.state = .disconnected ∧
      ∃ r cs fs, a = .runFunctor r cs ∧ w.batch = .sendInLoop late.1 late.2 :: fs := by
  cases a with
  | runFunctor r cs =>
    simp only [lateSend] at h
    split at h
    · next t m fs hbatch =>
      obtain ⟨hstate, rfl⟩ := guard_eq_some h
      exact ⟨hstate, r, cs, fs, rfl, hbatch⟩
    · cases h
  | _ => cases h

theorem sendInLoop_disconnected (hstate : w.state = .disconnected) (t : ThreadId) (m : Bytes)
    (r : WriteResult) : w.sendInLoop cfg t m r =
      { w with executed := w.executed ++ [(t, m)] }.bufferRemaining cfg m := by
  simp [World.sendInLoop, hstate]

theorem bufferRemaining_nil (w : World) : w.bufferRemaining cfg [] = w := by
  simp [World.bufferRemaining]

theorem bufferRemaining_unregistered (hreg : w.interest = none) {m : Bytes} (hm : m ≠ []) :
    (w.bufferRemaining cfg m).thrown = some .modifyFailed := by
  simp only [World.bufferRemaining, if_neg hm]
  split_ifs <;> simp [World.modifyFd, World.queueInLoop, World.throw, hreg]

theorem shutdownInLoop_thrown (w : World) : w.shutdownInLoop.thrown = w.thrown := by
  unfold World.shutdownInLoop
  split_ifs <;> rfl

/-- What a late send does: nothing with an empty message, else `modify_fd` throws. -/
theorem step_lateSend {late : ThreadId × Bytes} (hw : Closed w) (hlate : lateSend w a = some late)
    (hstep : step cfg w a = some w') :
    (late.2 = [] → w' = { w with batch := w.batch.tail, executed := w.executed ++ [late] }) ∧
      (late.2 ≠ [] → w'.thrown = some .modifyFailed) := by
  obtain ⟨hstate, r, cs, fs, rfl, hbatch⟩ := lateSend_eq hlate
  have hreg : w.interest = none := by simpa using hw.registered
  obtain ⟨-, hmove⟩ := step_move hstep
  cases hmove with
  | runFunctor r cs f fs' hbatch' =>
    rw [hbatch] at hbatch'
    obtain ⟨rfl, rfl⟩ := List.cons.inj hbatch'
    have hsend : ({ w with batch := fs } : World).sendInLoop cfg late.1 late.2 r =
        { w with batch := fs, executed := w.executed ++ [late] }.bufferRemaining cfg late.2 :=
      sendInLoop_disconnected (w := { w with batch := fs }) hstate late.1 late.2 r
    simp only [World.runFunctor, hsend]
    constructor
    · intro hm
      rw [hm, bufferRemaining_nil, hbatch]
      rfl
    · intro hm
      exact bufferRemaining_unregistered (w := { w with batch := fs, executed := _ }) hreg hm

/-- An exception other than that of a second close comes from a late send only. -/
theorem step_not_modifyFailed (hw : Open w ∨ Closed w) (hprompt : Prompt w a)
    (hstep : step cfg w a = some w') : w'.thrown ≠ some .modifyFailed := by
  obtain ⟨hthrown, hmove⟩ := step_move hstep
  have hnone : ∀ {u : World}, u.thrown = none → u.thrown ≠ some .modifyFailed := by
    intro u h
    simp [h]
  cases hmove with
  | call t c =>
    rcases hw with hw | hw
    · exact hnone (doCall_open hw t c).thrown
    · exact hnone ((doCall_closed cfg hw t c).2.trans hthrown)
  | swapFunctors hbatch => exact hnone hthrown
  | runFunctor r cs f fs hbatch =>
    rcases hw with hw | hw
    · exact hnone (runFunctor_open (hw.pop hbatch) r cs f).thrown
    · have hpop : Closed { w with batch := fs } := { hw with }
      have hcalls := doCalls_closed cfg hpop hthrown cs
      cases f with
      | sendInLoop t m =>
        have hlate : lateSend w (.runFunctor r cs) = some (t, m) := by
          simp [lateSend, hbatch, hw.state]
        have hsame := (step_lateSend hw hlate hstep).1 (hprompt (t, m) hlate)
        exact hnone (by rw [hsame]; exact hthrown)
      | shutdownInLoop =>
        exact hnone ((shutdownInLoop_thrown _).trans hthrown)
      | forceCloseInLoop =>
        rw [World.runFunctor, forceCloseInLoop_closed hpop]
        exact hnone hthrown
      | writeComplete => exact hnone hcalls.2
      | highWaterMark size => exact hnone hcalls.2
      | connectionDestroyed =>
        rw [World.runFunctor, connectionDestroyed_closed hpop]
        exact hnone hthrown
  | dispatch e r cs r' hinterest hbatch =>
    rcases hw with hw | hw
    · obtain ⟨hsep, htwice⟩ := dispatch_open cfg hw e r cs r'
      by_cases h : ClosesTwice e r cs
      · simp [(htwice h).2.1]
      · exact hnone (hsep h).thrown
    · simp [hw.registered] at hinterest
  | connectionDestroyed =>
    rcases hw with hw | hw
    · exact hnone (connectionDestroyed_open hw).thrown
    · rw [connectionDestroyed_closed hw]
      exact hnone hthrown
  | removeInLoop hremovals => exact hnone hthrown

/-- Open, closed, or ended by the exception of a second close. -/
def Known (w : World) : Prop := w.thrown = some .removeFailed ∨ Open w ∨ Closed w

theorem Known.live (hw : Known w) (hthrown : w.thrown = none) : Open w ∨ Closed w := by
  refine hw.resolve_left fun h => ?_
  rw [hthrown] at h
  cases h

theorem step_known (hw : Known w) (hstep : step cfg w a = some w') : Known w' := by
  obtain ⟨hsep, htwice⟩ := step_control (hw.live (step_move hstep).1) hstep
  by_cases ha : Separate a
  · exact .inr (hsep ha)
  · exact .inl (htwice ha).2.1

theorem dispatch_known (hw : Known w) (hreg : w.interest = none) (hthrown : w.thrown = none)
    (e : Events) (r : ReadResult) (cs : List Call) (r' : WriteResult) :
    Known (w.dispatch cfg e r cs r') ∧ (w.dispatch cfg e r cs r').thrown ≠ some .modifyFailed := by
  have hclosed : Closed w := by
    refine (hw.live hthrown).resolve_left fun hopen => ?_
    have hsome := hopen.registered
    rw [hreg] at hsome
    cases hsome
  rcases dispatch_closed cfg hclosed hthrown e r cs r' with ⟨hv, hnone⟩ | hremove
  · exact ⟨.inr (.inr hv), by simp [hnone]⟩
  · exact ⟨.inl hremove, by simp [hremove]⟩

theorem stepAny_known (hw : Known w) (hstep : stepAny cfg w a = some w') : Known w' := by
  rcases stepAny_cases hstep with h | ⟨e, r, cs, r', rfl, hreg, hthrown, rfl⟩
  · exact step_known hw h
  · exact (dispatch_known hw hreg hthrown e r cs r').1

theorem stepAny_not_modifyFailed (hw : Known w) (hprompt : Prompt w a)
    (hstep : stepAny cfg w a = some w') : w'.thrown ≠ some .modifyFailed := by
  rcases stepAny_cases hstep with h | ⟨e, r, cs, r', rfl, hreg, hthrown, rfl⟩
  · exact step_not_modifyFailed (hw.live (step_move h).1) hprompt h
  · exact (dispatch_known hw hreg hthrown e r cs r').2

theorem lateHarmless_iff (hw : Known w) (hstep : stepAny cfg w a = some w') :
    LateHarmless cfg w a ↔ Prompt w a := by
  have hlate : ∀ late, lateSend w a = some late → ∀ v, stepAny cfg w a = some v →
      step cfg w a = some v ∧ Closed w := by
    intro late hl v hv
    obtain ⟨hstate, r, cs, fs, rfl, -⟩ := lateSend_eq hl
    have hs : step cfg w (.runFunctor r cs) = some v := hv
    refine ⟨hs, (hw.live (step_move hs).1).resolve_left fun hopen => ?_⟩
    have hopen := hopen.state
    rw [hstate] at hopen
    simp at hopen
  constructor
  · intro hharmless late hl
    by_contra hm
    obtain ⟨hs, hclosed⟩ := hlate late hl w' hstep
    have hthrown := (step_lateSend hclosed hl hs).2 hm
    rw [hharmless late hl w' hstep, (step_move hs).1] at hthrown
    cases hthrown
  · intro hprompt late hl v hv
    obtain ⟨hs, hclosed⟩ := hlate late hl v hv
    exact (step_lateSend hclosed hl hs).1 (hprompt late hl)

/-- Over every run: each late send is harmless and no `modify_fd` throws exactly when every
send functor that runs after the close has an empty message. -/
theorem late_send_iff (cfg : Config) (initial : ℕ) (acts : List Act) (w : World)
    (hrun : run (stepAny cfg) (established initial) acts = some w) :
    (Guarded (stepAny cfg) (LateHarmless cfg) (established initial) acts ∧
        w.thrown ≠ some .modifyFailed) ↔
      Guarded (stepAny cfg) Prompt (established initial) acts := by
  have hstart : Known (established initial) := .inr (.inl (established_open initial))
  rw [guarded_iff (fun _ _ _ => stepAny_known) (fun _ _ _ => lateHarmless_iff) hstart hrun,
    and_iff_left_iff_imp]
  intro hprompt
  have hstep : ∀ v a v', (Known v ∧ v.thrown ≠ some .modifyFailed) → Prompt v a →
      stepAny cfg v a = some v' → Known v' ∧ v'.thrown ≠ some .modifyFailed := by
    intro v a v' hv hp hs
    exact ⟨stepAny_known hv.1 hs, stepAny_not_modifyFailed hv.1 hp hs⟩
  exact (run_invariant hstep ⟨hstart, by simp [(established_open initial).thrown]⟩ hprompt hrun).2

/-- A message sent in time, and an empty one that comes after the end of the stream. -/
theorem late_send_empty :
    let acts : List Act := [.call 1 (.send [7] (.wrote 0)), .swapFunctors, .runFunctor (.wrote 1) [],
      .call 1 (.send [] (.wrote 0)), .dispatch { read := true } (.received []) [] (.wrote 0),
      .swapFunctors, .runFunctor (.wrote 0) [], .runFunctor (.wrote 0) []]
    ∃ w, run (stepAny {}) (established 64) acts = some w ∧
      Guarded (stepAny {}) (LateHarmless {}) (established 64) acts ∧ w.thrown ≠ some .modifyFailed := by
  intro acts
  have hruns : (run (stepAny {}) (established 64) acts).isSome := by decide
  obtain ⟨w, hw⟩ := Option.isSome_iff_exists.mp hruns
  exact ⟨w, hw, (late_send_iff {} 64 acts w hw).mpr (by decide)⟩

/-- Another thread sends one byte, the peer closes, and then the functor runs. -/
theorem late_send_throws :
    ¬ ∀ (cfg : Config) (initial : ℕ) (acts : List Act) (w : World),
      run (stepAny cfg) (established initial) acts = some w →
        Guarded (stepAny cfg) (LateHarmless cfg) (established initial) acts ∧
          w.thrown ≠ some .modifyFailed := by
  intro h
  let acts : List Act := [.call 1 (.send [7] (.wrote 0)),
    .dispatch { read := true } (.received []) [] (.wrote 0), .swapFunctors, .runFunctor (.wrote 0) []]
  have hthrown : (run (stepAny {}) (established 64) acts).map World.thrown =
      some (some .modifyFailed) := by decide
  obtain ⟨w, hw, hmodify⟩ := Option.map_eq_some_iff.mp hthrown
  exact (h {} 64 acts w hw).2 hmodify

end TzzeroHttp.ConnectionLateSend
