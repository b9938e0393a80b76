import TzzeroHttp.ConnectionClose
import TzzeroHttp.ConnectionInterest
import TzzeroHttp.ConnectionOutput
import TzzeroHttp.ResponseConnection
import TzzeroHttp.ServerFragmentation
import TzzeroHttp.Simulation

/-! The HTTP server on a TCP connection: `on_message` is the message callback of the connection,
works on its input buffer in place, and sends and shuts down on the loop thread. Every run of
this connection is a run of the plain connection whose callbacks make the calls that the parser
and the server make, so all that holds of connections holds of it. -/
namespace TzzeroHttp.HttpConnectionModel
open ByteText HeaderMap BufferModel BufferQueue RequestModel ResponseModel ParserModel
open ConnectionModel ServerModel Runs
open ConnectionInterest (stepAny step_stepAny)

/-- What is left open for one message event: the server as it is at that moment, the order in
which a header table is walked, the date, and what the direct write of the response answers. -/
structure Turn where
  server : HttpServer
  order : HttpResponse → List Field
  listed : ∀ r, (order r).Perm r.headers.entries
  date : Bytes
  written : WriteResult

def Turn.render (turn : Turn) (r : HttpResponse) : Bytes := toBuffer r (turn.order r) turn.date

def Turn.calls (turn : Turn) (effects : List Effect) : List Call :=
  effects.filterMap fun
    | .send r => some (.send (turn.render r) turn.written)
    | .shutdown => some .shutdown
    | .callback _ | .parseError => none

structure HttpConnection where
  world : World
  context : Option HttpParser

/-- `other` are the moves that run no message callback. -/
inductive Act
  | dispatch (events : Events) (readResult : ReadResult) (turn : Turn) (writeResult : WriteResult)
  | other (act : ConnectionModel.Act)

/-- Nobody but the server sends on the connection, and it sets no other callbacks. -/
def Quiet : ConnectionModel.Act → Prop
  | .call _ .shutdown | .call _ .forceClose => True
  | .swapFunctors | .connectionDestroyed | .removeInLoop => True
  | .runFunctor _ calls => calls = []
  | .call _ (.send _ _) | .call _ (.retrieve _) | .dispatch _ _ _ _ => False

instance decidableQuiet : ∀ a, Decidable (Quiet a)
  | .call _ .shutdown | .call _ .forceClose => .isTrue trivial
  | .swapFunctors | .connectionDestroyed | .removeInLoop => .isTrue trivial
  | .runFunctor _ calls => inferInstanceAs (Decidable (calls = []))
  | .call _ (.send _ _) | .call _ (.retrieve _) | .dispatch _ _ _ _ => .isFalse id

namespace HttpConnection

def handleRead (cfg : Config) (result : ReadResult) (turn : Turn) (s : HttpConnection) : HttpConnection :=
  let w := { s.world with input := s.world.input.readFd result }
  match result with
  | .received [] => { s with world := w.handleClose cfg }
  | .received _ =>
    let r := turn.server.onMessage ⟨s.context, w.input⟩
    ⟨{ w with input := r.1.inputBuffer }.doCalls cfg (turn.calls r.2), r.1.context⟩
  | .failed _ => { s with world := w.handleError cfg }

def dispatch (cfg : Config) (events : Events) (readResult : ReadResult) (turn : Turn)
    (writeResult : WriteResult) (s : HttpConnection) : HttpConnection :=
  let s := if events.read then s.handleRead cfg readResult turn else s
  { s with world := (s.world.andThen fun w =>
      if events.write then w.handleWrite cfg writeResult else w).andThen fun w =>
        if events.error then w.handleError cfg else w }

end HttpConnection

/-- An event may have been collected before the descriptor was removed. -/
def step (cfg : Config) (s : HttpConnection) : Act → Option HttpConnection
  | .dispatch events readResult turn writeResult =>
    if s.world.thrown = none ∧ s.world.batch = [] then
      some (s.dispatch cfg events readResult turn writeResult)
    else none
  | .other a =>
    if Quiet a then (ConnectionModel.step cfg s.world a).map fun w => { s with world := w } else none

def established (initial : ℕ) : HttpConnection :=
  ⟨ConnectionModel.established initial, (ServerModel.established initial).context⟩

def Consumed (before after : ByteBuffer) : Prop :=
  after = before ∨ ∃ n, 0 < n ∧ n ≤ before.readable.length ∧ after = before.retrieve n

theorem retrieve_retrieve (b : ByteBuffer) {n m : ℕ} (h : n + m ≤ b.readable.length) (hm : 0 < m) :
    (b.retrieve n).retrieve m = b.retrieve (n + m) := by
  have hlen : b.readable.length = b.raw.readableBytes := b.valid.length_readable
  have hraw : (b.raw.retrieve n).retrieve m = b.raw.retrieve (n + m) := by
    have hfirst : b.raw.retrieve n = { b.raw with readIndex := b.raw.readIndex + n } := by
      rw [Buffer.retrieve, if_pos (by omega)]
    have hrest : (b.raw.retrieve n).readableBytes = b.raw.readableBytes - n := by
      have hleft : (b.raw.retrieve n).readable.length = (b.raw.retrieve n).readableBytes :=
        (b.retrieve n).valid.length_readable
      have hdrop : (b.raw.retrieve n).readable = b.readable.drop n := b.readable_retrieve n
      rw [← hleft, hdrop, List.length_drop, hlen]
    rw [hfirst] at hrest ⊢
    rw [Buffer.retrieve, Buffer.retrieve, hrest]
    by_cases hlt : n + m < b.raw.readableBytes
    · rw [if_pos (by omega), if_pos hlt, Nat.add_assoc]
    · rw [if_neg (by omega), if_neg hlt]
      rfl
  unfold ByteBuffer.retrieve
  congr 1

theorem Consumed.trans {a b c : ByteBuffer} (h : Consumed a b) (g : Consumed b c) : Consumed a c := by
  rcases h with rfl | ⟨n, hn, hle, rfl⟩
  · exact g
  · rcases g with rfl | ⟨m, hm, hle', rfl⟩
    · exact .inr ⟨n, hn, hle, rfl⟩
    · rw [ByteBuffer.readable_retrieve, List.length_drop] at hle'
      exact .inr ⟨n + m, by omega, by omega, retrieve_retrieve a (by omega) hm⟩

theorem consumed_line {b : ByteBuffer} {i : ℕ} (h : b.findCrlf = some i) : Consumed b (b.retrieve (i + 2)) :=
  .inr ⟨i + 2, by omega, findCrlf_bound h, rfl⟩

/-- A body that is waited for is not empty. -/
def ExpectsBody (c : ParseContext) : Prop := c.request.parseState = .body → 0 < c.parser.contentLength

theorem parseHeaderLine_state (line : Bytes) (q : HttpRequest) :
    (parseHeaderLine line q).2.parseState = q.parseState := by
  unfold parseHeaderLine
  split
  · rfl
  · split_ifs <;> rfl

theorem iteration_consumed {c : ParseContext} (hc : ExpectsBody c) :
    (∀ c', c.parseIteration = .inl c' → Consumed c.buffer c'.buffer ∧ ExpectsBody c') ∧
      ∀ r, c.parseIteration = .inr r → Consumed c.buffer r.2.buffer := by
  unfold ParseContext.parseIteration
  cases hs : c.request.parseState with
  | requestLine =>
    simp only
    cases hf : c.buffer.findCrlf with
    | none => exact ⟨by simp, fun r hr => by obtain rfl := Sum.inr.inj hr; exact .inl rfl⟩
    | some i =>
      have hline := consumed_line hf
      simp only
      split_ifs
      · refine ⟨fun c' hc' => ?_, by simp⟩
        obtain rfl := Sum.inl.inj hc'
        exact ⟨hline, by simp [ExpectsBody, HttpRequest.setParseState]⟩
      · refine ⟨by simp, fun r hr => ?_⟩
        obtain rfl := Sum.inr.inj hr
        exact hline
  | headers =>
    simp only
    cases hf : c.buffer.findCrlf with
    | none => exact ⟨by simp, fun r hr => by obtain rfl := Sum.inr.inj hr; exact .inl rfl⟩
    | some i =>
      have hline := consumed_line hf
      simp only
      split_ifs with hblank hpos hok
      · refine ⟨fun c' hc' => ?_, by simp⟩
        obtain rfl := Sum.inl.inj hc'
        exact ⟨hline, fun _ => hpos⟩
      · refine ⟨by simp, fun r hr => ?_⟩
        obtain rfl := Sum.inr.inj hr
        exact hline
      · refine ⟨fun c' hc' => ?_, by simp⟩
        obtain rfl := Sum.inl.inj hc'
        refine ⟨hline, fun hbody => ?_⟩
        have hkeep := (parseHeaderLine_state (c.buffer.peekString i) c.request).symm.trans hbody
        rw [hs] at hkeep
        cases hkeep
      · refine ⟨by simp, fun r hr => ?_⟩
        obtain rfl := Sum.inr.inj hr
        exact hline
  | body =>
    simp only
    split_ifs with hle
    · refine ⟨by simp, fun r hr => ?_⟩
      obtain rfl := Sum.inr.inj hr
      exact .inr ⟨c.parser.contentLength, hc hs, by simpa using hle, rfl⟩
    · exact ⟨by simp, fun r hr => by obtain rfl := Sum.inr.inj hr; exact .inl rfl⟩
  | complete => exact ⟨by simp, fun r hr => by obtain rfl := Sum.inr.inj hr; exact .inl rfl⟩
  | error => exact ⟨by simp, fun r hr => by obtain rfl := Sum.inr.inj hr; exact .inl rfl⟩

theorem parseRequest_consumed {c : ParseContext} (hc : ExpectsBody c) :
    Consumed c.buffer (parseRequest c).2.buffer := by
  refine parseLoop.run_induction (P := fun c r => ExpectsBody c → Consumed c.buffer r.2.buffer) ?_ ?_ c hc
  · intro c r hr hc
    exact (iteration_consumed hc).2 r hr
  · intro c c' hc' ih hc
    obtain ⟨hfirst, hnext⟩ := (iteration_consumed hc).1 c' hc'
    exact hfirst.trans (ih hnext)

theorem onMessage_consumed (server : HttpServer) (s : Session) :
    Consumed s.inputBuffer (server.onMessage s).1.inputBuffer := by
  have hparsed := parseRequest_consumed (c := ⟨s.context.getD {}, s.inputBuffer, {}⟩)
    (fun hbody => by cases hbody)
  unfold HttpServer.onMessage
  simp only
  split_ifs <;> exact hparsed

/-- The calls that stand for one message event: what the parser took, and the server's effects. -/
def messageCalls (s : HttpConnection) (result : ReadResult) (turn : Turn) : List Call :=
  match result with
  | .received (_ :: _) =>
    let input := s.world.input.readFd result
    let r := turn.server.onMessage ⟨s.context, input⟩
    let taken := input.readable.length - r.1.inputBuffer.readable.length
    (if taken = 0 then [] else [.retrieve taken]) ++ turn.calls r.2
  | .received [] | .failed _ => []

/-- The move of the plain connection that matches a move. -/
def plainAct (s : HttpConnection) : Act → ConnectionModel.Act
  | .dispatch events readResult turn writeResult =>
    .dispatch events readResult (messageCalls s readResult turn) writeResult
  | .other a => a

variable {cfg : Config} {s s' : HttpConnection}

theorem Consumed.eq_retrieve {before after : ByteBuffer} (h : Consumed before after) :
    after = if before.readable.length - after.readable.length = 0 then before
      else before.retrieve (before.readable.length - after.readable.length) := by
  rcases h with rfl | ⟨n, hn, hle, rfl⟩
  · simp
  · have hdrop : before.readable.length - (before.retrieve n).readable.length = n := by
      rw [ByteBuffer.readable_retrieve, List.length_drop]
      omega
    rw [hdrop, if_neg (by omega)]

variable (cfg) in
theorem handleRead_plain (result : ReadResult) (turn : Turn) (hthrown : s.world.thrown = none) :
    (s.handleRead cfg result turn).world = s.world.handleRead cfg result (messageCalls s result turn) := by
  cases result with
  | failed e => rfl
  | received data =>
    cases data with
    | nil => rfl
    | cons x data =>
      have hleft := (onMessage_consumed turn.server
        ⟨s.context, s.world.input.readFd (.received (x :: data))⟩).eq_retrieve
      simp only [HttpConnection.handleRead, World.handleRead, messageCalls]
      simp only at hleft
      split_ifs at hleft ⊢ with htaken
      · rw [hleft]
        rfl
      · simp only [List.cons_append, List.nil_append, World.doCalls, World.doCall]
        rw [ConnectionClose.andThen_eq (by exact hthrown), ← hleft]

theorem step_plain {a : Act} (h : step cfg s a = some s') :
    stepAny cfg s.world (plainAct s a) = some s'.world := by
  cases a with
  | dispatch events readResult turn writeResult =>
    obtain ⟨⟨hthrown, hbatch⟩, rfl⟩ := guard_eq_some h
    have hread := handleRead_plain cfg readResult turn hthrown
    simp only [stepAny, plainAct, hthrown, hbatch, and_self, if_true]
    unfold HttpConnection.dispatch World.dispatch
    cases events.read with
    | false => rfl
    | true => simp only [if_true, hread]
  | other a =>
    obtain ⟨-, h⟩ := Option.ite_none_right_eq_some.mp h
    obtain ⟨w, hw, rfl⟩ := Option.map_eq_some_iff.mp h
    exact step_stepAny hw

/-- Every run of the server's connection is a run of the plain connection. -/
theorem run_plain {acts : List Act} (hrun : run (step cfg) s acts = some s') :
    run (stepAny cfg) s.world (Simulation.trace (step cfg) (fun s a => [plainAct s a]) s acts) =
      some s'.world := by
  have hstep : ∀ (t : HttpConnection) (w : World) a t', t.world = w → step cfg t a = some t' →
      ∃ w', run (stepAny cfg) w [plainAct t a] = some w' ∧ t'.world = w' := by
    intro t w a t' htw ha
    exact ⟨t'.world, run_cons.mpr ⟨t'.world, htw ▸ step_plain ha, rfl⟩, rfl⟩
  obtain ⟨w, hw, rfl⟩ := Simulation.run_simulates hstep rfl hrun
  exact hw

end TzzeroHttp.HttpConnectionModel
