import TzzeroHttp.ParserGrammar
import TzzeroHttp.Runs
import TzzeroHttp.ServerModel

/-! Requests after the server has decided to close. `shutdown()` closes only the sending
side, so reads go on, and `on_message` asks neither the connection nor the parser's error
flag before it parses: whatever then completes a request is dispatched. -/
namespace TzzeroHttp.ServerClosing
open ByteText BufferQueue RequestModel ResponseModel ParserModel ParserStream ParserGrammar ServerModel Runs

structure Served where
  session : Session
  log : List Effect

structure Read where
  data : Bytes
  handler : HttpCallback

def serve (server : HttpServer) (w : Served) (r : Read) : Option Served :=
  let out := (server.setHttpCallback r.handler).receive w.session r.data
  some ⟨out.1, w.log ++ out.2⟩

/-- No callback comes after a `shutdown()`. -/
def ClosedStays (log : List Effect) : Prop :=
  log.Pairwise fun x y => x = .shutdown → ∀ req, y ≠ .callback req

def StartsRequest (bytes : Bytes) : Prop :=
  ∃ line fields body rest, Message bytes line fields body rest

/-- A read that, after a `shutdown()`, leaves no whole request in front of the buffer. -/
def Silent (w : Served) (r : Read) : Prop :=
  .shutdown ∈ w.log → ¬ StartsRequest (w.session.inputBuffer.readable ++ r.data)

variable {server : HttpServer} {cb : HttpCallback}

theorem callbacks_eq_nil {log : List Effect} :
    callbacks log = [] ↔ ∀ y ∈ log, ∀ req, y ≠ .callback req := by
  induction log with
  | nil => simp
  | cons x log ih => cases x <;> simp [callbacks] at ih ⊢ <;> exact ih

theorem closedStays_append {a b : List Effect} :
    ClosedStays (a ++ b) ↔ ClosedStays a ∧ ClosedStays b ∧ (.shutdown ∈ a → callbacks b = []) := by
  unfold ClosedStays
  rw [List.pairwise_append, callbacks_eq_nil]
  constructor
  · rintro ⟨ha, hb, hab⟩
    exact ⟨ha, hb, fun hx y hy => hab _ hx y hy rfl⟩
  · rintro ⟨ha, hb, hab⟩
    refine ⟨ha, hb, fun x hx y hy hs => ?_⟩
    subst hs
    exact hab hx y hy

theorem closedStays_onRequest (req : HttpRequest) :
    ClosedStays ((server.setHttpCallback cb).onRequest req) := by
  unfold HttpServer.onRequest HttpServer.setHttpCallback ClosedStays
  simp only
  split_ifs <;> simp

/-- One read calls the handler exactly when a whole request stands in front of the buffer. -/
theorem receive_callbacks (server : HttpServer) (cb : HttpCallback) (s : Session) (data : Bytes) :
    let out := ((server.setHttpCallback cb).receive s data).2
    ClosedStays out ∧ (callbacks out = [] ↔ ¬ StartsRequest (s.inputBuffer.readable ++ data)) := by
  intro out
  obtain ⟨-, -, heff⟩ := receive_eq (server.setHttpCallback cb) s data
  by_cases hmsg : StartsRequest (s.inputBuffer.readable ++ data)
  · obtain ⟨line, fields, body, rest, hm⟩ := hmsg
    obtain ⟨m, target, v, hline⟩ := hm.requestLine
    obtain ⟨p', -, hrun⟩ := message_complete hm hline (s.context.getD {})
    rw [hrun] at heff
    have hout : out = (server.setHttpCallback cb).onRequest (messageRequest m target v fields body) :=
      heff
    rw [hout]
    refine ⟨closedStays_onRequest _, iff_of_false ?_ (not_not.mpr ⟨line, fields, body, rest, hm⟩)⟩
    rw [callbacks_onRequest]
    exact List.cons_ne_nil _ _
  · have hfalse : (parseStream ⟨s.context.getD {}, s.inputBuffer.readable ++ data, {}⟩).1 = false := by
      by_contra hdone
      exact hmsg (message_of_complete (by simpa using hdone))
    simp only [hfalse, Bool.false_eq_true, if_false] at heff
    have hcases : out = [.parseError, .shutdown] ∨ out = [] := by
      split_ifs at heff with herr
      · exact .inl heff
      · exact .inr heff
    rcases hcases with hout | hout
    · rw [hout]
      exact ⟨by simp [ClosedStays], iff_of_true rfl hmsg⟩
    · rw [hout]
      exact ⟨List.Pairwise.nil, iff_of_true rfl hmsg⟩

theorem serve_closedStays {w w' : Served} {r : Read} (h : serve server w r = some w') :
    ClosedStays w'.log ↔ ClosedStays w.log ∧ Silent w r := by
  obtain rfl := Option.some.inj h
  obtain ⟨hone, hnone⟩ := receive_callbacks server r.handler w.session r.data
  rw [closedStays_append, hnone]
  exact ⟨fun ⟨ha, _, hs⟩ => ⟨ha, hs⟩, fun ⟨ha, hs⟩ => ⟨ha, hone, hs⟩⟩

theorem run_closedStays {w w' : Served} {reads : List Read} (h : run (serve server) w reads = some w') :
    ClosedStays w'.log ↔ ClosedStays w.log ∧ Guarded (serve server) Silent w reads := by
  induction reads generalizing w with
  | nil =>
    obtain rfl := Option.some.inj h
    simp [Guarded]
  | cons r reads ih =>
    obtain ⟨w₁, h₁, h₂⟩ := run_cons.mp h
    rw [ih h₂, serve_closedStays h₁, and_assoc, guarded_cons h₁]

/-- Over every sequence of reads, with any handler in each: no request is dispatched after a
`shutdown()` exactly when no read after it leaves a whole request in front of the buffer. -/
theorem closed_stays_iff (server : HttpServer) (s : Session) (reads : List Read) (w : Served)
    (hrun : run (serve server) ⟨s, []⟩ reads = some w) :
    ClosedStays w.log ↔ Guarded (serve server) Silent ⟨s, []⟩ reads := by
  rw [run_closedStays hrun]
  exact and_iff_right List.Pairwise.nil

def getClose : Bytes := ascii "GET / HTTP/1.1\r\nConnection: close\r\n\r\n"

theorem StartsRequest.has_crlf {bytes : Bytes} (h : StartsRequest bytes) : crlf <:+: bytes := by
  obtain ⟨line, fields, body, rest, hm⟩ := h
  exact ⟨line, joinLines fields ++ crlf ++ body ++ rest, by simp [hm.text]⟩

/-- A closing response, and then only a part of another request. -/
theorem closed_stays_partial :
    let reads : List Read := [⟨getClose, fun _ r => r⟩, ⟨ascii "GET / HT", fun _ r => r⟩]
    ∃ w, run (serve {}) ⟨established 64, []⟩ reads = some w ∧ .shutdown ∈ w.log ∧
      ClosedStays w.log := by
  intro reads
  let first := (HttpServer.setHttpCallback {} fun _ r => r).receive (established 64) getClose
  have hempty : first.1.inputBuffer.readable = [] := by decide
  have hsilent : Guarded (serve {}) Silent ⟨established 64, []⟩ reads := by
    refine ⟨fun h => absurd h List.not_mem_nil, fun w₁ hw₁ => ⟨fun _ hstart => ?_, fun _ _ => trivial⟩⟩
    obtain rfl := Option.some.inj hw₁
    have hcrlf := hstart.has_crlf
    rw [show _ ++ _ = ascii "GET / HT" by exact congrArg (· ++ ascii "GET / HT") hempty] at hcrlf
    exact absurd hcrlf (by decide)
  let isShutdown : Effect → Bool
    | .shutdown => true
    | _ => false
  have hclosing : (run (serve {}) ⟨established 64, []⟩ reads).map (fun w => w.log.any isShutdown) =
      some true := by decide
  obtain ⟨w, hw, hany⟩ := Option.map_eq_some_iff.mp hclosing
  refine ⟨w, hw, ?_, (closed_stays_iff {} (established 64) reads w hw).mpr hsilent⟩
  obtain ⟨e, he, hkind⟩ := List.any_eq_true.mp hany
  cases e with
  | shutdown => exact he
  | _ => simp [isShutdown] at hkind

/-- A closing response, and then a second request. -/
theorem dispatched_after_close :
    ¬ ∀ (server : HttpServer) (s : Session) (reads : List Read) (w : Served),
      run (serve server) ⟨s, []⟩ reads = some w → ClosedStays w.log := by
  intro h
  let kind : Effect → ℕ
    | .callback _ => 0
    | .send _ => 1
    | .parseError => 2
    | .shutdown => 3
  let reads : List Read := [⟨getClose, fun _ r => r⟩, ⟨getClose, fun _ r => r⟩]
  have hkinds : (run (serve {}) ⟨established 64, []⟩ reads).map (fun w => w.log.map kind) =
      some [0, 1, 3, 0, 1, 3] := by decide
  obtain ⟨w, hw, hlog⟩ := Option.map_eq_some_iff.mp hkinds
  have horder : (w.log.map kind).Pairwise fun a b => a = 3 → b ≠ 0 := by
    refine (h {} _ reads w hw).map kind fun x y hxy => ?_
    cases x with
    | shutdown =>
      cases y with
      | callback req => exact absurd rfl (hxy rfl req)
      | _ => simp [kind]
    | _ => simp [kind]
  rw [hlog] at horder
  exact absurd horder (by decide)

end TzzeroHttp.ServerClosing
