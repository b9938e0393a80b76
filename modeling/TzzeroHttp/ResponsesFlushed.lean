import TzzeroHttp.HttpResponses

/-! How responses get out. While the connection is CONNECTED every write event that takes a byte
shortens the output buffer, and nothing but a new response lengthens it; so after as many of them
as there were bytes the responses are on the socket, all of them. -/
namespace TzzeroHttp.ResponsesFlushed
open ByteText BufferModel BufferQueue ConnectionModel ServerModel HttpConnectionModel HttpResponses Runs
open ConnectionOutput hiding HarmlessAct
open ResponseConnection (sent)

variable {cfg : Config} {w v : World}

theorem output_modifyFd (e : Events) : (w.modifyFd e).output = w.output := by
  unfold World.modifyFd
  cases w.interest <;> rfl

theorem output_removeFd : w.removeFd.output = w.output := by
  unfold World.removeFd
  cases w.interest <;> rfl

theorem output_andThen {f : World → World} (h : (f w).output = w.output) : (w.andThen f).output = w.output := by
  unfold World.andThen
  split_ifs
  · rfl
  · exact h

theorem output_closeCallback : (w.closeCallback cfg).output = w.output := by
  unfold World.closeCallback
  cases cfg.closeCallback <;> rfl

theorem output_handleClose : (w.handleClose cfg).output = w.output := by
  unfold World.handleClose
  rw [output_andThen output_closeCallback, output_removeFd]

theorem output_connectionDestroyed : (w.connectionDestroyed cfg).output = w.output := by
  unfold World.connectionDestroyed
  split_ifs
  · exact output_handleClose
  · rfl

theorem output_shutdownInLoop : w.shutdownInLoop.output = w.output := by
  unfold World.shutdownInLoop
  split_ifs <;> rfl

theorem output_forceCloseInLoop : (w.forceCloseInLoop cfg).output = w.output := by
  unfold World.forceCloseInLoop
  split_ifs
  · exact output_handleClose
  · rfl

theorem output_shutdown (t : ThreadId) : (w.shutdown cfg t).output = w.output := by
  unfold World.shutdown
  simp only
  split_ifs
  · exact output_shutdownInLoop
  · rfl
  · rfl

theorem output_forceClose (t : ThreadId) : (w.forceClose cfg t).output = w.output := by
  unfold World.forceClose
  simp only
  split_ifs
  · exact output_forceCloseInLoop
  · rfl
  · rfl

/-- No quiet move touches the output buffer when no send is queued. -/
theorem output_quiet {a : ConnectionModel.Act} (ha : Quiet a) (hqueued : (traffic w).queued = [])
    (hstep : ConnectionModel.step cfg w a = some v) : v.output = w.output := by
  cases (step_move hstep).2 with
  | call t c =>
    cases c with
    | shutdown => exact output_shutdown t
    | forceClose => exact output_forceClose t
    | send m r => exact ha.elim
    | retrieve len => exact ha.elim
  | swapFunctors hbatch => rfl
  | runFunctor r cs f fs hbatch =>
    obtain rfl : cs = [] := ha
    cases f with
    | sendInLoop t m => simp [traffic, hbatch, sends] at hqueued
    | shutdownInLoop => exact output_shutdownInLoop
    | forceCloseInLoop => exact output_forceCloseInLoop
    | writeComplete => rfl
    | highWaterMark size => rfl
    | connectionDestroyed => exact output_connectionDestroyed
  | dispatch e r cs r' hinterest hbatch => exact ha.elim
  | connectionDestroyed => exact output_connectionDestroyed
  | removeInLoop hremovals => rfl

theorem output_outputDrained : (w.outputDrained cfg).output = w.output := by
  unfold World.outputDrained
  rw [output_andThen, output_modifyFd]
  simp only
  split_ifs
  · exact output_shutdownInLoop
  · rfl
  · exact output_shutdownInLoop
  · rfl

/-- A write takes from the front of the output buffer what the kernel takes. -/
theorem readable_handleWrite (hconnected : w.state = .connected) (n : ℕ) :
    (w.handleWrite cfg (.wrote n)).output.readable = w.output.readable.drop n := by
  have hwritten : (w.output.writeFd (.wrote (w.output.readable.take n).length)).readable =
      w.output.readable.drop n := by
    rw [ByteBuffer.writeFd, ByteBuffer.readable_retrieve, List.length_take]
    rcases Nat.le_total n w.output.readable.length with hle | hle
    · rw [Nat.min_eq_left hle]
    · rw [Nat.min_eq_right hle, List.drop_length, List.drop_eq_nil_of_le hle]
  unfold World.handleWrite
  rw [if_pos hconnected]
  simp only
  split_ifs with hdata hempty
  · rcases List.take_eq_nil_iff.mp hdata with rfl | hnil
    · rfl
    · simp [hnil]
  · rw [output_outputDrained]
    exact hwritten
  · exact hwritten

/-- Write events, and any move that runs no message callback. -/
def Flushing : HttpConnectionModel.Act → Prop
  | .other _ => True
  | .dispatch events _ _ _ => events = { write := true }

def room : HttpConnectionModel.Act → ℕ
  | .dispatch _ _ _ (.wrote n) => n
  | .dispatch _ _ _ (.failed _) | .other _ => 0

theorem message_flushing {a : HttpConnectionModel.Act} (ha : Flushing a) : message a = [] := by
  cases a with
  | other a => rfl
  | dispatch e r turn r' =>
    obtain rfl : e = { write := true } := ha
    cases r with
    | failed e => rfl
    | received data => cases data <;> rfl

variable {initial : ℕ} {ms : List (HttpServer × Bytes)} {s s' : HttpConnection}

theorem step_flushing {a : HttpConnectionModel.Act} (h : Answering initial ms s) (ha : Flushing a)
    (hconnected : s.world.state = .connected) (hstep : HttpConnectionModel.step cfg s a = some s') :
    s'.world.output.readable.length = s.world.output.readable.length - room a := by
  cases a with
  | other a =>
    obtain ⟨hquiet, hworld⟩ := Option.ite_none_right_eq_some.mp hstep
    obtain ⟨v, hv, rfl⟩ := Option.map_eq_some_iff.mp hworld
    exact congrArg (fun b => b.readable.length) (output_quiet hquiet h.unqueued hv)
  | dispatch e r turn r' =>
    obtain ⟨⟨hthrown, -⟩, rfl⟩ := guard_eq_some hstep
    obtain rfl : e = { write := true } := ha
    have hworld : (s.dispatch cfg { write := true } r turn r').world.output =
        (s.world.handleWrite cfg r').output := by
      unfold HttpConnection.dispatch
      simp only [Bool.false_eq_true, if_false, if_true]
      rw [ConnectionClose.andThen_eq hthrown]
      exact output_andThen rfl
    rw [hworld]
    cases r' with
    | wrote n => rw [readable_handleWrite hconnected, List.length_drop, room]
    | failed e => simp [World.handleWrite, room]

theorem run_flushing {acts : List HttpConnectionModel.Act} (h : Answering initial ms s)
    (hharmless : ∀ a ∈ acts, HarmlessAct a) (hflushing : ∀ a ∈ acts, Flushing a)
    (hrun : run (HttpConnectionModel.step cfg) s acts = some s') (hconnected : s'.world.state = .connected) :
    s.world.state = .connected ∧
      s'.world.output.readable.length = s.world.output.readable.length - (acts.map room).sum := by
  induction acts generalizing s ms with
  | nil =>
    obtain rfl := Option.some.inj hrun
    exact ⟨hconnected, rfl⟩
  | cons a acts ih =>
    obtain ⟨s₁, hfirst, hrest⟩ := run_cons.mp hrun
    have hnext := step_answering h (hharmless a List.mem_cons_self) hfirst
    obtain ⟨hstate, hlength⟩ := ih hnext (fun b hb => hharmless b (List.mem_cons_of_mem a hb))
      (fun b hb => hflushing b (List.mem_cons_of_mem a hb)) hrest
    have hbefore := (state_of_step hfirst h.opened).2 hstate
    have hstep := step_flushing h (hflushing a List.mem_cons_self) hbefore hfirst
    refine ⟨hbefore, ?_⟩
    rw [hlength, hstep, List.map_cons, List.sum_cons]
    omega

theorem run_advance {acts : List HttpConnectionModel.Act} (h : ConnectionInterest.Advance w s.world)
    (hrun : run (HttpConnectionModel.step cfg) s acts = some s') : ConnectionInterest.Advance w s'.world := by
  have hstep : ∀ (t : HttpConnection) a t', ConnectionInterest.Advance w t.world →
      HttpConnectionModel.step cfg t a = some t' → ConnectionInterest.Advance w t'.world :=
    fun t a t' ht ha => ht.trans (ConnectionInterest.advance_stepAny (step_plain ha))
  exact run_preserves hstep h hrun

/-- In every run of a connection of the server that is still CONNECTED at its end: once the kernel
has had room, in the write events since some moment, for as many bytes as were in the output buffer
then, and nothing was read in between, the responses to all requests until that moment are on the
socket, whole and in order, and the connection asks for no write events any more. -/
theorem answers_reach_wire (cfg : Config) (initial : ℕ) (acts more : List HttpConnectionModel.Act)
    (s s' : HttpConnection)
    (hrun : run (HttpConnectionModel.step cfg) (HttpConnectionModel.established initial) acts = some s)
    (hmore : run (HttpConnectionModel.step cfg) s more = some s')
    (hharmless : ∀ a ∈ acts ++ more, HarmlessAct a) (hflushing : ∀ a ∈ more, Flushing a)
    (hconnected : s'.world.state = .connected)
    (henough : s.world.output.readable.length ≤ (more.map room).sum) :
    (∃ texts, List.Forall₂ Renders (sent (deliverEach (ServerModel.established initial)
        (acts.flatMap message)).2) texts ∧ wire s'.world.socket = texts.flatten) ∧
      s'.world.output.readable = [] ∧
      (s'.world.thrown = none → ∀ e ∈ s'.world.interest, e.write = false) := by
  have hstart : Answering initial ([] ++ acts.flatMap message) s :=
    run_answering (established_answering initial) (fun a ha => hharmless a (by simp [ha])) hrun
  have hlater : ∀ a ∈ more, HarmlessAct a := fun a ha => hharmless a (by simp [ha])
  have hend := run_answering hstart hlater hmore
  have hsilent : more.flatMap message = [] :=
    List.flatMap_eq_nil_iff.mpr fun a ha => message_flushing (hflushing a ha)
  rw [hsilent, List.append_nil, List.nil_append] at hend
  have hlength := (run_flushing hstart hlater hflushing hmore hconnected).2
  have hempty : s'.world.output.readable = [] := List.length_eq_zero_iff.mp (by omega)
  obtain ⟨kept, -, hrenders, hall⟩ := hend.answers
  refine ⟨⟨_, hall hconnected ▸ hrenders, ?_⟩, hempty, fun hthrown e he => ?_⟩
  · have hstream := hend.stream
    simpa [traffic, hempty] using hstream
  · have hadvance := run_advance (.refl _) (run_append.mpr ⟨s, hrun, hmore⟩)
    have hsynced := hadvance.synced hthrown (ConnectionInterest.established_synced initial)
    have hwanted := (hsynced.wanted e he).2
    simpa [hempty] using hwanted

/-- A response that goes out in three pieces, the socket being full in between. -/
theorem answers_reach_wire_pieces :
    let acts : List HttpConnectionModel.Act := [
      .dispatch { read := true } (.received ServerPipelining.getRoot) (plainTurn (.wrote 9)) (.wrote 0)]
    let more : List HttpConnectionModel.Act := [
      .dispatch { write := true } (.received []) (plainTurn (.wrote 0)) (.wrote 50),
      .dispatch { write := true } (.received []) (plainTurn (.wrote 0)) (.failed .wouldBlock),
      .other .swapFunctors,
      .dispatch { write := true } (.received []) (plainTurn (.wrote 0)) (.wrote 1000)]
    ∃ s texts, run (HttpConnectionModel.step {}) (HttpConnectionModel.established 1024) (acts ++ more) = some s ∧
      List.Forall₂ Renders (sent (deliverEach (ServerModel.established 1024) (acts.flatMap message)).2) texts ∧
      wire s.world.socket = texts.flatten ∧ s.world.output.readable = [] := by
  intro acts more
  have hharmless : ∀ a ∈ acts ++ more, HarmlessAct a := by
    simp [acts, more, HarmlessAct, Harmless, plainTurn]
  have hflushing : ∀ a ∈ more, Flushing a := by simp [more, Flushing]
  have hfirst : (run (HttpConnectionModel.step {}) (HttpConnectionModel.established 1024) acts).map
      (fun s => decide (s.world.output.readable.length ≤ 1050)) = some true := by decide +kernel
  have hend : (run (HttpConnectionModel.step {}) (HttpConnectionModel.established 1024) (acts ++ more)).map
      (fun s => s.world.state) = some .connected := by decide +kernel
  obtain ⟨s, hs, hle⟩ := Option.map_eq_some_iff.mp hfirst
  obtain ⟨s', hs', hstate⟩ := Option.map_eq_some_iff.mp hend
  obtain ⟨s₁, hs₁, hmore⟩ := run_append.mp hs'
  obtain rfl := Option.some.inj (hs.symm.trans hs₁)
  obtain ⟨⟨texts, hrenders, hwire⟩, hempty, -⟩ :=
    answers_reach_wire {} 1024 acts more s s' hs hmore hharmless hflushing hstate (of_decide_eq_true hle)
  exact ⟨s', texts, hs', hrenders, hwire, hempty⟩

end TzzeroHttp.ResponsesFlushed
