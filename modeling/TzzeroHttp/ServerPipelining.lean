import TzzeroHttp.ParserGrammar
import TzzeroHttp.ServerModel

/-! Several whole requests in one stream. The parser reads them off exactly, one for each call.
The server parses one request per message event, so it answers all requests of one read exactly
when there is at most one. -/
namespace TzzeroHttp.ServerPipelining
open ByteText BufferQueue RequestModel ParserModel ParserStream ParserLines ParserIncremental
open ParserGrammar ServerModel

/-- `r` alone, parsed by a fresh parser into a fresh request. -/
def parseAlone (initial : ℕ) (r : Bytes) : Bool × ParseContext :=
  parseRequest (arrive (fresh initial) r)

/-- `r` alone is one whole request, with nothing left over. -/
def Whole (initial : ℕ) (r : Bytes) : Prop :=
  (parseAlone initial r).1 = true ∧ (parseAlone initial r).2.buffer.readable = []

theorem whole_message {initial : ℕ} {r : Bytes} (h : Whole initial r) :
    ∃ line fields body m target v, Message r line fields body [] ∧ RequestLine line m target v ∧
      (parseAlone initial r).2.request = messageRequest m target v fields body := by
  obtain ⟨hret, hview⟩ := parseRequest_fresh initial r
  obtain ⟨line, fields, body, rest, hm⟩ := message_of_complete (hret.symm.trans h.1)
  obtain ⟨m, target, v, hline⟩ := hm.requestLine
  obtain ⟨p', -, hrun⟩ := message_complete hm hline {}
  rw [hrun] at hview
  obtain rfl : rest = [] := (congrArg StreamState.bytes hview).symm.trans h.2
  exact ⟨line, fields, body, m, target, v, hm, hline, congrArg StreamState.request hview⟩

/-- A whole request in front of other bytes is read off exactly, by any parser. -/
theorem parseStream_whole {initial : ℕ} {r : Bytes} (h : Whole initial r) (p : HttpParser)
    (t : Bytes) : ∃ p', p'.hasError = p.hasError ∧
      parseStream ⟨p, r ++ t, {}⟩ = (true, ⟨p', t, (parseAlone initial r).2.request⟩) := by
  obtain ⟨line, fields, body, m, target, v, hm, hline, hreq⟩ := whole_message h
  have hmt : Message (r ++ t) line fields body t :=
    { hm with text := by rw [hm.text, List.append_nil] }
  obtain ⟨p', hp', hrun⟩ := message_complete hmt hline p
  exact ⟨p', hp', by rw [hrun, hreq]⟩

theorem parseRequest_whole {initial : ℕ} {r t : Bytes} (h : Whole initial r) {c : ParseContext}
    (hq : c.request = {}) (hc : c.buffer.readable = r ++ t) :
    (parseRequest c).1 = true ∧ (parseRequest c).2.request = (parseAlone initial r).2.request ∧
      (parseRequest c).2.buffer.readable = t := by
  obtain ⟨p', -, hrun⟩ := parseStream_whole h c.parser t
  have hview := parseRequest_view c
  have hstart : view c = ⟨c.parser, r ++ t, {}⟩ := by
    simp [view, hq, hc]
  rw [hstart, hrun] at hview
  have hstate : view (parseRequest c).2 = ⟨p', t, (parseAlone initial r).2.request⟩ :=
    congrArg Prod.snd hview
  exact ⟨congrArg Prod.fst hview, congrArg StreamState.request hstate,
    congrArg StreamState.bytes hstate⟩

/-- One call of `parse_request` for each element, every one with a new request; the element
says whether `reset()` is called after it. -/
def parseEach (c : ParseContext) : List Bool → List (Bool × HttpRequest) × ParseContext
  | [] => ([], c)
  | reset :: resets =>
    let r := parseRequest { c with request := {} }
    let parser := if reset then r.2.parser.reset else r.2.parser
    let rest := parseEach { r.2 with parser := parser } resets
    ((r.1, r.2.request) :: rest.1, rest.2)

/-- Whole requests in front of `t` in one buffer: as many calls on one parser, in whatever
state it starts and whether or not it is reset in between, give exactly these requests and
leave `t`. -/
theorem requests_framed (initial : ℕ) (rs : List Bytes) (hrs : ∀ r ∈ rs, Whole initial r)
    (t : Bytes) (c : ParseContext) (hc : c.buffer.readable = rs.flatten ++ t) (resets : List Bool)
    (hlen : resets.length = rs.length) :
    (parseEach c resets).1 = rs.map (fun r => (true, (parseAlone initial r).2.request)) ∧
      (parseEach c resets).2.buffer.readable = t := by
  induction rs generalizing c resets with
  | nil =>
    obtain rfl := List.length_eq_zero_iff.mp hlen
    exact ⟨rfl, hc.trans (List.nil_append t)⟩
  | cons r rs ih =>
    cases resets with
    | nil => simp at hlen
    | cons reset resets =>
      have hfront : c.buffer.readable = r ++ (rs.flatten ++ t) := by simpa using hc
      obtain ⟨hret, hreq, hrest⟩ := parseRequest_whole (c := { c with request := {} })
        (hrs r (by simp)) rfl hfront
      generalize hx : parseRequest { c with request := {} } = x at hret hreq hrest
      obtain ⟨hall, hleft⟩ := ih (fun r' hr' => hrs r' (by simp [hr']))
        ⟨if reset then x.2.parser.reset else x.2.parser, x.2.buffer, x.2.request⟩ hrest resets
        (by simpa using hlen)
      simp only [parseEach, hx, List.map_cons]
      exact ⟨by rw [hall, hret, hreq], hleft⟩

/-- A read that leaves a whole request and `t` in the input buffer: the request is answered
and `t` stays. -/
theorem receive_whole (server : HttpServer) {s : Session} {initial : ℕ} {r data t : Bytes}
    (h : Whole initial r) (hdata : s.inputBuffer.readable ++ data = r ++ t) :
    (server.receive s data).1.inputBuffer.readable = t ∧
      (server.receive s data).2 = server.onRequest (parseAlone initial r).2.request := by
  obtain ⟨p', -, hrun⟩ := parseStream_whole h (s.context.getD {}) t
  obtain ⟨hbytes, -, heff⟩ := receive_eq server s data
  rw [hdata, hrun] at hbytes heff
  exact ⟨hbytes, heff⟩

theorem whole_ne_nil {initial : ℕ} {r : Bytes} (h : Whole initial r) : r ≠ [] := by
  rintro rfl
  obtain ⟨p', -, hrun⟩ := parseStream_whole h {} []
  have hst : (StreamState.mk {} ([] ++ []) {}).Starved := .inl ⟨.inl rfl, by simp [crlf]⟩
  rw [parseStream_starved hst] at hrun
  cases hrun

/-- All `rs` served: the callback ran once for each, in order, with what it parses to on its
own, and nothing is left in the input buffer. -/
def Served (initial : ℕ) (rs : List Bytes) (out : Session × List Effect) : Prop :=
  callbacks out.2 = rs.map (fun r => (parseAlone initial r).2.request) ∧
    out.1.inputBuffer.readable = []

/-- Keep-alive requests that arrive in one read on an empty input buffer are all served
exactly when there is at most one of them. -/
theorem pipelined_served_iff (server : HttpServer) (cb : HttpCallback) (initial : ℕ) (s : Session)
    (hs : s.inputBuffer.readable = []) (rs : List Bytes)
    (hrs : ∀ r ∈ rs, Whole initial r ∧ (parseAlone initial r).2.request.keepAlive = true) :
    Served initial rs ((server.setHttpCallback cb).receive s rs.flatten) ↔ rs.length ≤ 1 := by
  cases rs with
  | nil =>
    have hst : ∀ p, (StreamState.mk p [] {}).Starved := fun p => .inl ⟨.inl rfl, by simp [crlf]⟩
    obtain ⟨hbytes, -, heff⟩ := receive_eq (server.setHttpCallback cb) s []
    rw [hs, List.append_nil, parseStream_starved (hst _)] at hbytes heff
    simp only [Bool.false_eq_true, if_false] at heff
    refine iff_of_true ⟨?_, hbytes⟩ (by simp)
    rw [List.flatten_nil, heff]
    split_ifs <;> rfl
  | cons r rs =>
    have hdata : s.inputBuffer.readable ++ (r :: rs).flatten = r ++ rs.flatten := by simp [hs]
    obtain ⟨hbytes, heff⟩ := receive_whole (server.setHttpCallback cb) (hrs r (by simp)).1 hdata
    unfold Served
    rw [hbytes, heff, callbacks_onRequest]
    cases rs with
    | nil => simp
    | cons r₂ rs =>
      have hne := whole_ne_nil (hrs r₂ (by simp)).1
      simp [hne]

def getRoot : Bytes := ascii "GET / HTTP/1.1\r\n\r\n"

theorem getRoot_whole :
    Whole 1024 getRoot ∧ (parseAlone 1024 getRoot).2.request.keepAlive = true := by
  refine ⟨⟨?_, ?_⟩, ?_⟩ <;> decide +kernel

/-- A request whose body reads like a request, then another one, then the start of a third. -/
theorem requests_framed_nested :
    let post := ascii "POST /x HTTP/1.1\r\nContent-Length: 18\r\n\r\nGET / HTTP/1.1\r\n\r\n"
    let c := arrive (fresh 64) ([post, getRoot].flatten ++ getRoot.take 7)
    (parseEach c [false, true]).1 =
        [post, getRoot].map (fun r => (true, (parseAlone 1024 r).2.request)) ∧
      (parseEach c [false, true]).2.buffer.readable = getRoot.take 7 := by
  intro post c
  have hpost : Whole 1024 post := by
    constructor <;> decide +kernel
  have hwhole : ∀ r ∈ [post, getRoot], Whole 1024 r := by
    simpa using ⟨hpost, getRoot_whole.1⟩
  have hc : c.buffer.readable = [post, getRoot].flatten ++ getRoot.take 7 := by
    simp [c, arrive, fresh]
  exact requests_framed 1024 [post, getRoot] hwhole _ c hc [false, true] rfl

theorem pipelined_served_single :
    Served 1024 [getRoot] ((HttpServer.setHttpCallback {} fun _ r => r).receive (established 1024)
      [getRoot].flatten) :=
  (pipelined_served_iff {} _ 1024 (established 1024) (by decide) [getRoot]
    (by simpa using getRoot_whole)).mpr (by decide)

/-- Two requests in one read: the callback runs for the first only. -/
theorem pipelined_unserved_pair :
    ¬ ∀ (server : HttpServer) (cb : HttpCallback) (initial : ℕ) (s : Session),
      s.inputBuffer.readable = [] → ∀ rs : List Bytes,
        (∀ r ∈ rs, Whole initial r ∧ (parseAlone initial r).2.request.keepAlive = true) →
          Served initial rs ((server.setHttpCallback cb).receive s rs.flatten) := by
  intro h
  have hempty : (established 1024).inputBuffer.readable = [] := by decide
  have hpair := h {} (fun _ r => r) 1024 (established 1024) hempty [getRoot, getRoot]
    (by simpa using getRoot_whole)
  have hdata : (established 1024).inputBuffer.readable ++ [getRoot, getRoot].flatten =
      getRoot ++ getRoot := by
    simp [hempty]
  obtain ⟨-, heff⟩ := receive_whole (HttpServer.setHttpCallback {} fun _ r => r) getRoot_whole.1 hdata
  have hcount := congrArg List.length hpair.1
  rw [heff, callbacks_onRequest] at hcount
  simp at hcount

end TzzeroHttp.ServerPipelining
