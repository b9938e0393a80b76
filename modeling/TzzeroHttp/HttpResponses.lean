import TzzeroHttp.ConnectionFrame
import TzzeroHttp.HttpConnectionModel

/-! The output of an HTTP connection. Whatever the reads, the write results and the moves of
closing, the bytes on the socket and behind them in the output buffer are whole responses: those
of the first requests that the parser completed, in order, and all of them as long as the
connection is CONNECTED. -/
namespace TzzeroHttp.HttpResponses
open ByteText HeaderMap BufferModel BufferQueue RequestModel ResponseModel ParserModel ParserStream
open ConnectionModel ServerModel HttpConnectionModel ConnectionOutput Runs
open ResponseConnection (sent)

/-- The part of a move that reaches `on_message`, with the server as it is then. -/
def message : HttpConnectionModel.Act → List (HttpServer × Bytes)
  | .dispatch events (.received (x :: data)) turn _ =>
    if events.read then [(turn.server, x :: data)] else []
  | .dispatch _ (.received []) _ _ | .dispatch _ (.failed _) _ _ | .other _ => []

def deliverEach (s : Session) : List (HttpServer × Bytes) → Session × List Effect
  | [] => (s, [])
  | m :: ms =>
    let r := m.1.receive s m.2
    let rest := deliverEach r.1 ms
    (rest.1, r.2 ++ rest.2)

theorem deliverEach_concat (s : Session) (ms : List (HttpServer × Bytes)) (m : HttpServer × Bytes) :
    deliverEach s (ms ++ [m]) =
      ((m.1.receive (deliverEach s ms).1 m.2).1,
        (deliverEach s ms).2 ++ (m.1.receive (deliverEach s ms).1 m.2).2) := by
  induction ms generalizing s with
  | nil => simp [deliverEach]
  | cons m' ms ih => simp [deliverEach, ih]

@[simp] theorem sent_append (a b : List Effect) : sent (a ++ b) = sent a ++ sent b := by
  simp [sent]

theorem onMessage_eq (server : HttpServer) (s : Session) :
    let z := parseStream ⟨s.context.getD {}, s.inputBuffer.readable, {}⟩
    (server.onMessage s).1.inputBuffer.readable = z.2.bytes ∧
      (server.onMessage s).1.context = some (if z.1 then {} else z.2.parser) ∧
      (server.onMessage s).2 = (if z.1 then server.onRequest z.2.request
        else if z.2.parser.hasError then [.parseError, .shutdown] else []) := by
  intro z
  have hview : view (parseRequest ⟨s.context.getD {}, s.inputBuffer, {}⟩).2 = z.2 :=
    congrArg Prod.snd (parseRequest_view ⟨s.context.getD {}, s.inputBuffer, {}⟩)
  have hret : (parseRequest ⟨s.context.getD {}, s.inputBuffer, {}⟩).1 = z.1 :=
    congrArg Prod.fst (parseRequest_view ⟨s.context.getD {}, s.inputBuffer, {}⟩)
  rw [← hret, ← hview]
  simp only [HttpServer.onMessage, view]
  split_ifs with hdone herr
  · simp [HttpParser.reset]
  · simp [herr]
  · simp [herr]

/-- The server looks at the bytes of the input buffer, not at how they lie in it. -/
theorem onMessage_receive (server : HttpServer) {s : Session} {b : ByteBuffer} {data : Bytes}
    (hb : b.readable = s.inputBuffer.readable ++ data) :
    (server.onMessage ⟨s.context, b⟩).1.inputBuffer.readable =
        (server.receive s data).1.inputBuffer.readable ∧
      (server.onMessage ⟨s.context, b⟩).1.context = (server.receive s data).1.context ∧
      (server.onMessage ⟨s.context, b⟩).2 = (server.receive s data).2 := by
  obtain ⟨hbytes, hcontext, heffects⟩ := onMessage_eq server ⟨s.context, b⟩
  obtain ⟨hbytes', hcontext', heffects'⟩ := receive_eq server s data
  simp only [hb] at hbytes hcontext heffects
  exact ⟨hbytes.trans hbytes'.symm, hcontext.trans hcontext'.symm, heffects.trans heffects'.symm⟩

/-- What one message event makes the server do with its connection: nothing, a shutdown, or one
response with or without a shutdown behind it. -/
theorem calls_onMessage (turn : Turn) (s : Session) :
    (turn.calls (turn.server.onMessage s).2 = [] ∧ sent (turn.server.onMessage s).2 = []) ∨
    (turn.calls (turn.server.onMessage s).2 = [.shutdown] ∧ sent (turn.server.onMessage s).2 = []) ∨
    ∃ r tail, turn.calls (turn.server.onMessage s).2 = .send (turn.render r) turn.written :: tail ∧
      sent (turn.server.onMessage s).2 = [r] ∧ (tail = [] ∨ tail = [.shutdown]) := by
  obtain ⟨-, -, heffects⟩ := onMessage_eq turn.server s
  rw [heffects]
  split_ifs
  · right; right
    unfold HttpServer.onRequest
    cases turn.server.httpCallback with
    | none =>
      simp only
      split_ifs
      · exact ⟨_, _, rfl, rfl, .inr rfl⟩
      · exact ⟨_, _, rfl, rfl, .inl rfl⟩
    | some cb =>
      simp only
      split_ifs
      · exact ⟨_, _, rfl, rfl, .inr rfl⟩
      · exact ⟨_, _, rfl, rfl, .inl rfl⟩
  · exact .inr (.inl ⟨rfl, rfl⟩)
  · exact .inl ⟨rfl, rfl⟩

/-- Messages that the loop thread sends without a queue. -/
def reply (loop : ThreadId) (texts : List Bytes) (x : Traffic) : Traffic :=
  { x with
    stream := x.stream ++ texts.flatten, issued := x.issued ++ texts.map (loop, ·)
    executed := x.executed ++ texts.map (loop, ·) }

variable {cfg : Config} {w : World}

theorem reply_nil (loop : ThreadId) (x : Traffic) : reply loop [] x = x := by
  simp [reply]

theorem traffic_doCalls_shutdown (tail : List Call) (h : tail = [] ∨ tail = [.shutdown]) :
    traffic (w.doCalls cfg tail) = traffic w := by
  rcases h with rfl | rfl
  · rfl
  · rw [World.doCalls, traffic_andThen rfl]
    exact traffic_shutdown cfg.loopThread

variable (cfg) in
/-- One message event adds the bytes of its response, unless the connection is closing. -/
theorem traffic_message (turn : Turn) (hw : Harmless turn.written) (s : Session) :
    traffic (w.doCalls cfg (turn.calls (turn.server.onMessage s).2)) =
      reply cfg.loopThread
        (if w.state = .connected then (sent (turn.server.onMessage s).2).map turn.render else [])
        (traffic w) := by
  rcases calls_onMessage turn s with ⟨hcalls, hsent⟩ | ⟨hcalls, hsent⟩ | ⟨r, tail, hcalls, hsent, htail⟩
  · rw [hcalls, hsent, List.map_nil, ite_self, reply_nil]
    rfl
  · rw [hcalls, hsent, List.map_nil, ite_self, reply_nil]
    exact traffic_doCalls_shutdown _ (.inr rfl)
  · have hfirst : traffic (w.doCall cfg cfg.loopThread (.send (turn.render r) turn.written)) =
        reply cfg.loopThread (if w.state = .connected then [turn.render r] else []) (traffic w) := by
      unfold World.doCall World.send
      simp only [if_true]
      split_ifs with hstate
      · rw [traffic_sendInLoop _ _ hw]
        simp [reply, traffic]
      · exact (reply_nil _ _).symm
    rw [hcalls, hsent, World.doCalls, traffic_andThen (traffic_doCalls_shutdown tail htail), hfirst]
    rfl

def Renders (r : HttpResponse) (text : Bytes) : Prop :=
  ∃ order date, order.Perm r.headers.entries ∧ text = toBuffer r order date

theorem renders_render (turn : Turn) (rs : List HttpResponse) :
    List.Forall₂ Renders rs (rs.map turn.render) := by
  induction rs with
  | nil => exact .nil
  | cons r rs ih => exact .cons ⟨turn.order r, turn.date, turn.listed r, rfl⟩ ih

/-- The connection against the reads that have reached `on_message`: the server's session on
these reads, and the responses that have been accepted for sending. -/
structure Answering (initial : ℕ) (ms : List (HttpServer × Bytes)) (s : HttpConnection) : Prop where
  context : s.context = (deliverEach (ServerModel.established initial) ms).1.context
  input : s.world.input.readable = (deliverEach (ServerModel.established initial) ms).1.inputBuffer.readable
  unqueued : (traffic s.world).queued = []
  stream : (traffic s.world).stream = ((traffic s.world).executed.map Prod.snd).flatten
  opened : s.world.state ≠ .connecting
  answers : ∃ kept, kept <+: sent (deliverEach (ServerModel.established initial) ms).2 ∧
    List.Forall₂ Renders kept ((traffic s.world).executed.map Prod.snd) ∧
    (s.world.state = .connected → kept = sent (deliverEach (ServerModel.established initial) ms).2)

variable {initial : ℕ} {ms : List (HttpServer × Bytes)} {s s' : HttpConnection}

theorem established_answering (initial : ℕ) : Answering initial [] (HttpConnectionModel.established initial) where
  context := rfl
  input := by
    simp [HttpConnectionModel.established, ConnectionModel.established, World.connectionEstablished,
      World.addFd, deliverEach, ServerModel.established, HttpServer.onConnection]
  unqueued := rfl
  stream := by
    simp [HttpConnectionModel.established, ConnectionModel.established, World.connectionEstablished,
      World.addFd, traffic, wire]
  opened := by
    simp [HttpConnectionModel.established, ConnectionModel.established, World.connectionEstablished,
      World.addFd]
  answers := ⟨[], List.prefix_rfl, .nil, fun _ => rfl⟩

theorem Answering.unchanged (h : Answering initial ms s) (hcontext : s'.context = s.context)
    (hinput : s'.world.input.readable = s.world.input.readable)
    (htraffic : traffic s'.world = traffic s.world) (hopened : s'.world.state ≠ .connecting)
    (hstate : s'.world.state = .connected → s.world.state = .connected) : Answering initial ms s' where
  context := hcontext.trans h.context
  input := hinput.trans h.input
  unqueued := htraffic ▸ h.unqueued
  stream := htraffic ▸ h.stream
  opened := hopened
  answers := by
    obtain ⟨kept, hprefix, hrenders, hall⟩ := h.answers
    exact ⟨kept, hprefix, htraffic ▸ hrenders, fun hs => hall (hstate hs)⟩

theorem Answering.message (h : Answering initial ms s) {turn : Turn} {data : Bytes}
    {effects : List Effect}
    (heffects : effects = (turn.server.receive (deliverEach (ServerModel.established initial) ms).1 data).2)
    (hcontext : s'.context =
      (turn.server.receive (deliverEach (ServerModel.established initial) ms).1 data).1.context)
    (hinput : s'.world.input.readable =
      (turn.server.receive (deliverEach (ServerModel.established initial) ms).1 data).1.inputBuffer.readable)
    {loop : ThreadId}
    (htraffic : traffic s'.world = reply loop
      (if s.world.state = .connected then (sent effects).map turn.render else []) (traffic s.world))
    (hopened : s'.world.state ≠ .connecting)
    (hstate : s'.world.state = .connected → s.world.state = .connected) :
    Answering initial (ms ++ [(turn.server, data)]) s' where
  context := by rw [deliverEach_concat, hcontext]
  input := by rw [deliverEach_concat, hinput]
  unqueued := by
    rw [htraffic]
    exact h.unqueued
  stream := by
    rw [htraffic]
    simp [reply, h.stream, Function.comp_def]
  opened := hopened
  answers := by
    obtain ⟨kept, hprefix, hrenders, hall⟩ := h.answers
    rw [deliverEach_concat, sent_append, ← heffects, htraffic]
    have htexts : ∀ texts : List Bytes,
        ((reply loop texts (traffic s.world)).executed.map Prod.snd) =
          (traffic s.world).executed.map Prod.snd ++ texts := by
      intro texts
      simp [reply, Function.comp_def]
    rw [htexts]
    by_cases hconnected : s.world.state = .connected
    · rw [if_pos hconnected, ← hall hconnected]
      exact ⟨kept ++ sent effects, List.prefix_rfl,
        List.rel_append hrenders (renders_render turn _), fun _ => rfl⟩
    · rw [if_neg hconnected, List.append_nil]
      exact ⟨kept, hprefix.trans (List.prefix_append _ _), hrenders, fun hs => absurd (hstate hs) hconnected⟩

/-- No write of the move fails with EPIPE or ECONNRESET. -/
def HarmlessAct : HttpConnectionModel.Act → Prop
  | .dispatch _ _ turn _ => Harmless turn.written
  | .other _ => True

theorem state_of_step {a : HttpConnectionModel.Act} (hstep : HttpConnectionModel.step cfg s a = some s')
    (hopened : s.world.state ≠ .connecting) :
    s'.world.state ≠ .connecting ∧ (s'.world.state = .connected → s.world.state = .connected) := by
  have hforward := (ConnectionInterest.advance_stepAny (step_plain hstep)).forward
  cases hbefore : s.world.state <;> cases hafter : s'.world.state <;>
    simp [hbefore, hafter, ConnectionInterest.rank] at hforward hopened ⊢

variable (cfg) in
theorem dispatch_frame (e : Events) (r : WriteResult) (v : World) :
    let u := (v.andThen fun u => if e.write then u.handleWrite cfg r else u).andThen fun u =>
      if e.error then u.handleError cfg else u
    traffic u = traffic v ∧ u.input = v.input := by
  intro u
  exact ⟨traffic_dispatchRest e r v, ConnectionFrame.sameInput_closing.dispatchRest rfl e r⟩

theorem traffic_runFunctor {f : Functor} {fs : List Functor} (hbatch : w.batch = f :: fs)
    (hqueued : (traffic w).queued = []) (r : WriteResult) :
    traffic ({ w with batch := fs }.runFunctor cfg r [] f) = traffic w := by
  have hf : sends [f] = [] ∧ sends (fs ++ w.pending) = [] := by
    have hsplit : sends ([f] ++ (fs ++ w.pending)) = [] := by
      rw [← List.append_assoc, List.singleton_append, ← hbatch]
      exact hqueued
    simpa only [sends_append, List.append_eq_nil_iff] using hsplit
  have hpop : traffic { w with batch := fs } = traffic w := by
    simp only [traffic, hbatch, List.cons_append, hf.2]
    rw [← List.singleton_append, sends_append, hf.1, hf.2]
    rfl
  rw [← hpop]
  cases f with
  | sendInLoop t m => cases hf.1
  | shutdownInLoop => exact traffic_shutdownInLoop
  | forceCloseInLoop => exact traffic_forceCloseInLoop
  | writeComplete => rfl
  | highWaterMark size => rfl
  | connectionDestroyed => exact traffic_connectionDestroyed

theorem other_frame {a : ConnectionModel.Act} (ha : Quiet a) (hqueued : (traffic w).queued = [])
    {v : World} (hstep : ConnectionModel.step cfg w a = some v) :
    traffic v = traffic w ∧ v.input = w.input := by
  have hframe := ConnectionFrame.sameInput_closing
  cases (step_move hstep).2 with
  | call t c =>
    cases c with
    | shutdown => exact ⟨traffic_shutdown t, hframe.shutdown w t⟩
    | forceClose => exact ⟨traffic_forceClose t, hframe.forceClose w t⟩
    | send m r => exact ha.elim
    | retrieve len => exact ha.elim
  | swapFunctors hbatch => exact ⟨by simp [traffic, hbatch], rfl⟩
  | runFunctor r cs f fs hbatch =>
    obtain rfl : cs = [] := ha
    exact ⟨traffic_runFunctor hbatch hqueued r, hframe.runFunctor { w with batch := fs } r f⟩
  | dispatch e r cs r' hinterest hbatch => exact ha.elim
  | connectionDestroyed => exact ⟨traffic_connectionDestroyed, hframe.connectionDestroyed w⟩
  | removeInLoop hremovals => exact ⟨traffic_queueInLoop rfl, rfl⟩

variable (cfg) in
/-- `handle_read` against the server's session: what it leaves in the context, in the input
buffer and of the traffic. -/
theorem handleRead_answering (h : Answering initial ms s) {turn : Turn} (hw : Harmless turn.written)
    (x : UInt8) (data : Bytes) :
    let m := turn.server.receive (deliverEach (ServerModel.established initial) ms).1 (x :: data)
    let v := s.handleRead cfg (.received (x :: data)) turn
    v.context = m.1.context ∧ v.world.input.readable = m.1.inputBuffer.readable ∧
      traffic v.world = reply cfg.loopThread
        (if s.world.state = .connected then (sent m.2).map turn.render else []) (traffic s.world) := by
  intro m v
  have hbytes : (s.world.input.readFd (.received (x :: data))).readable =
      (deliverEach (ServerModel.established initial) ms).1.inputBuffer.readable ++ (x :: data) := by
    rw [ByteBuffer.readable_readFd, h.input]
  obtain ⟨hinput, hcontext, heffects⟩ := onMessage_receive turn.server hbytes
  rw [← h.context] at hinput hcontext heffects
  obtain ⟨b, hb, hread⟩ : ∃ b : ByteBuffer, b.readable = m.1.inputBuffer.readable ∧
      v = ⟨World.doCalls cfg { s.world with input := b } (turn.calls m.2), m.1.context⟩ := by
    refine ⟨_, hinput, ?_⟩
    simp only [v, HttpConnection.handleRead, hcontext, heffects]
    rfl
  have hcalls : ∀ c ∈ turn.calls m.2, ∀ len, c ≠ .retrieve len := by
    intro c hc len heq
    obtain ⟨e, -, he⟩ := List.mem_filterMap.mp hc
    rw [heq] at he
    cases e <;> simp at he
  have hkept : (World.doCalls cfg { s.world with input := b } (turn.calls m.2)).input = b :=
    ConnectionFrame.sameInput_closing.doCalls _ hcalls
  have htraffic := traffic_message cfg (w := { s.world with input := b }) turn hw
    ⟨s.context, s.world.input.readFd (.received (x :: data))⟩
  rw [heffects] at htraffic
  rw [hread]
  exact ⟨rfl, by rw [hkept, hb], htraffic⟩

theorem step_answering {a : HttpConnectionModel.Act} (h : Answering initial ms s) (ha : HarmlessAct a)
    (hstep : HttpConnectionModel.step cfg s a = some s') : Answering initial (ms ++ message a) s' := by
  obtain ⟨hopened, hstate⟩ := state_of_step hstep h.opened
  cases a with
  | other a =>
    obtain ⟨hquiet, hworld⟩ := Option.ite_none_right_eq_some.mp hstep
    obtain ⟨v, hv, rfl⟩ := Option.map_eq_some_iff.mp hworld
    obtain ⟨htraffic, hinput⟩ := other_frame hquiet h.unqueued hv
    rw [message, List.append_nil]
    exact h.unchanged rfl (congrArg ByteBuffer.readable hinput) htraffic hopened hstate
  | dispatch e r turn r' =>
    obtain ⟨-, rfl⟩ := guard_eq_some hstep
    obtain ⟨htraffic, hinput⟩ := dispatch_frame cfg e r'
      (if e.read then s.handleRead cfg r turn else s).world
    cases hread : e.read with
    | false =>
      have hnone : message (.dispatch e r turn r') = [] := by
        cases r with
        | failed e' => rfl
        | received data => cases data <;> simp [message, hread]
      simp only [hread, Bool.false_eq_true, if_false] at htraffic hinput
      rw [hnone, List.append_nil]
      exact h.unchanged (by simp [HttpConnection.dispatch, hread])
        (by simp only [HttpConnection.dispatch, hread, Bool.false_eq_true, if_false]; rw [hinput])
        (by simpa [HttpConnection.dispatch, hread] using htraffic) hopened hstate
    | true =>
      simp only [hread, if_true] at htraffic hinput
      have hworld : (s.dispatch cfg e r turn r').context = (s.handleRead cfg r turn).context := by
        simp [HttpConnection.dispatch, hread]
      have htraffic' : traffic (s.dispatch cfg e r turn r').world = traffic (s.handleRead cfg r turn).world := by
        simpa [HttpConnection.dispatch, hread] using htraffic
      have hinput' : (s.dispatch cfg e r turn r').world.input = (s.handleRead cfg r turn).world.input := by
        simpa [HttpConnection.dispatch, hread] using hinput
      have hclose : ∀ w : World, w.input.readable = s.world.input.readable → traffic w = traffic s.world →
          (s.handleRead cfg r turn) = { s with world := w.handleClose cfg } → message (.dispatch e r turn r') = [] →
            Answering initial (ms ++ message (.dispatch e r turn r')) (s.dispatch cfg e r turn r') := by
        intro w hw hwt heq hnone
        rw [heq] at hworld htraffic' hinput'
        rw [hnone, List.append_nil]
        refine h.unchanged hworld ?_ (htraffic'.trans (traffic_handleClose.trans hwt)) hopened hstate
        rw [hinput', ← hw]
        exact congrArg ByteBuffer.readable (ConnectionFrame.sameInput_closing.handleClose w)
      cases r with
      | failed e' => exact hclose { s.world with input := s.world.input.readFd (.failed e') } rfl rfl rfl rfl
      | received data =>
        cases data with
        | nil => exact hclose { s.world with input := s.world.input.readFd (.received []) } (by simp) rfl rfl rfl
        | cons x data =>
          obtain ⟨hc, hi, ht⟩ := handleRead_answering cfg h ha x data
          have hone : message (.dispatch e (.received (x :: data)) turn r') = [(turn.server, x :: data)] := by
            simp [message, hread]
          rw [hone]
          exact h.message rfl (hworld.trans hc) ((congrArg ByteBuffer.readable hinput').trans hi)
            (htraffic'.trans ht) hopened hstate

theorem run_answering {acts : List HttpConnectionModel.Act} (h : Answering initial ms s)
    (hacts : ∀ a ∈ acts, HarmlessAct a) (hrun : run (HttpConnectionModel.step cfg) s acts = some s') :
    Answering initial (ms ++ acts.flatMap message) s' := by
  induction acts generalizing s ms with
  | nil =>
    obtain rfl := Option.some.inj hrun
    simpa using h
  | cons a acts ih =>
    obtain ⟨s₁, hfirst, hrest⟩ := run_cons.mp hrun
    have hnext := step_answering h (hacts a List.mem_cons_self) hfirst
    have hend := ih hnext (fun b hb => hacts b (List.mem_cons_of_mem a hb)) hrest
    rwa [List.flatMap_cons, ← List.append_assoc]

/-- Over every run of a connection of the server whose writes never fail with EPIPE or
ECONNRESET, whatever the fragmentation of the reads, the handlers, the write results and the
moves that close the connection: the bytes on the socket followed by the output buffer are the
serialisations of the first responses that the server makes on the reads so far, whole and in
order, and of all of them while the connection is CONNECTED. -/
theorem responses_in_order (cfg : Config) (initial : ℕ) (acts : List HttpConnectionModel.Act)
    (s : HttpConnection) (hacts : ∀ a ∈ acts, HarmlessAct a)
    (hrun : run (HttpConnectionModel.step cfg) (HttpConnectionModel.established initial) acts = some s) :
    ∃ kept texts, kept <+: sent (deliverEach (ServerModel.established initial) (acts.flatMap message)).2 ∧
      List.Forall₂ Renders kept texts ∧ wire s.world.socket ++ s.world.output.readable = texts.flatten ∧
      (s.world.state = .connected →
        kept = sent (deliverEach (ServerModel.established initial) (acts.flatMap message)).2) := by
  have h := run_answering (established_answering initial) hacts hrun
  rw [List.nil_append] at h
  obtain ⟨kept, hprefix, hrenders, hall⟩ := h.answers
  exact ⟨kept, _, hprefix, hrenders, h.stream, hall⟩

/-- A turn of the default server; the header table is walked as it lies. -/
def plainTurn (written : WriteResult) : Turn where
  server := {}
  order r := r.headers.entries
  listed _ := List.Perm.refl _
  date := ascii "now"
  written := written

/-- A request in two reads, an answer that the socket takes in two writes, and a peer that closes. -/
theorem responses_in_order_split :
    let acts : List HttpConnectionModel.Act := [
      .dispatch { read := true } (.received (ascii "GET / HT")) (plainTurn (.wrote 0)) (.wrote 0),
      .dispatch { read := true } (.received (ascii "TP/1.1\r\n\r\n")) (plainTurn (.wrote 9)) (.wrote 0),
      .dispatch { write := true } (.received []) (plainTurn (.wrote 0)) (.wrote 50),
      .dispatch { read := true } (.received []) (plainTurn (.wrote 0)) (.wrote 0)]
    ∃ s kept texts, run (HttpConnectionModel.step {}) (HttpConnectionModel.established 64) acts = some s ∧
      s.world.state = .disconnected ∧
      kept <+: sent (deliverEach (ServerModel.established 64) (acts.flatMap message)).2 ∧
      List.Forall₂ Renders kept texts ∧ wire s.world.socket ++ s.world.output.readable = texts.flatten := by
  intro acts
  have hacts : ∀ a ∈ acts, HarmlessAct a := by
    simp [acts, HarmlessAct, Harmless, plainTurn]
  have hend : (run (HttpConnectionModel.step {}) (HttpConnectionModel.established 64) acts).map
      (fun s => s.world.state) = some .disconnected := by decide +kernel
  obtain ⟨s, hs, hstate⟩ := Option.map_eq_some_iff.mp hend
  obtain ⟨kept, texts, hprefix, hrenders, hbytes, -⟩ := responses_in_order {} 64 acts s hacts hs
  exact ⟨s, kept, texts, hs, hstate, hprefix, hrenders, hbytes⟩

def answersTo (initial : ℕ) (ms : List (HttpServer × Bytes)) : List HttpResponse :=
  ms.flatMap fun m => sent (m.1.onRequest (ServerPipelining.parseAlone initial m.2).2.request)

theorem deliverEach_whole {initial : ℕ} {ms : List (HttpServer × Bytes)}
    (hms : ∀ m ∈ ms, ServerPipelining.Whole initial m.2) {x : Session} (hx : x.inputBuffer.readable = []) :
    sent (deliverEach x ms).2 = answersTo initial ms := by
  induction ms generalizing x with
  | nil => rfl
  | cons m ms ih =>
    have hdata : x.inputBuffer.readable ++ m.2 = m.2 ++ [] := by simp [hx]
    obtain ⟨hleft, heffects⟩ := ServerPipelining.receive_whole m.1 (hms m List.mem_cons_self) hdata
    have hrest := ih (fun m' hm' => hms m' (List.mem_cons_of_mem m hm')) hleft
    rw [deliverEach, sent_append, heffects, hrest]
    rfl

/-- Requests that come one in each read are answered one by one: the output is the responses to
the first of them, whole and in the order of the requests, and to all of them while the
connection is CONNECTED. -/
theorem requests_answered (cfg : Config) (initial : ℕ) (acts : List HttpConnectionModel.Act)
    (s : HttpConnection) (hacts : ∀ a ∈ acts, HarmlessAct a)
    (hwhole : ∀ m ∈ acts.flatMap message, ServerPipelining.Whole initial m.2)
    (hrun : run (HttpConnectionModel.step cfg) (HttpConnectionModel.established initial) acts = some s) :
    ∃ kept texts, kept <+: answersTo initial (acts.flatMap message) ∧ List.Forall₂ Renders kept texts ∧
      wire s.world.socket ++ s.world.output.readable = texts.flatten ∧
      (s.world.state = .connected → kept = answersTo initial (acts.flatMap message)) := by
  have h := run_answering (established_answering initial) hacts hrun
  rw [List.nil_append] at h
  obtain ⟨kept, hprefix, hrenders, hall⟩ := h.answers
  have hstart : (ServerModel.established initial).inputBuffer.readable = [] := by
    simp [ServerModel.established, HttpServer.onConnection]
  rw [deliverEach_whole hwhole hstart] at hprefix hall
  exact ⟨kept, _, hprefix, hrenders, h.stream, hall⟩

/-- Two requests; the second response is still in the output buffer. -/
theorem requests_answered_two :
    let acts : List HttpConnectionModel.Act := [
      .dispatch { read := true } (.received ServerPipelining.getRoot) (plainTurn (.wrote 9)) (.wrote 0),
      .dispatch { read := true } (.received ServerPipelining.getRoot) (plainTurn (.wrote 0)) (.wrote 0)]
    ∃ s kept texts, run (HttpConnectionModel.step {}) (HttpConnectionModel.established 1024) acts = some s ∧
      List.Forall₂ Renders kept texts ∧ wire s.world.socket ++ s.world.output.readable = texts.flatten ∧
      kept = answersTo 1024 (acts.flatMap message) := by
  intro acts
  have hacts : ∀ a ∈ acts, HarmlessAct a := by
    simp [acts, HarmlessAct, Harmless, plainTurn]
  have hmessages : acts.flatMap message =
      [({}, ServerPipelining.getRoot), ({}, ServerPipelining.getRoot)] := rfl
  have hwhole : ∀ m ∈ acts.flatMap message, ServerPipelining.Whole 1024 m.2 := by
    simpa [hmessages] using ServerPipelining.getRoot_whole.1
  have hend : (run (HttpConnectionModel.step {}) (HttpConnectionModel.established 1024) acts).map
      (fun s => s.world.state) = some .connected := by decide +kernel
  obtain ⟨s, hs, hstate⟩ := Option.map_eq_some_iff.mp hend
  obtain ⟨kept, texts, -, hrenders, hbytes, hall⟩ := requests_answered {} 1024 acts s hacts hwhole hs
  exact ⟨s, kept, texts, hs, hrenders, hbytes, hall hstate⟩

end TzzeroHttp.HttpResponses
