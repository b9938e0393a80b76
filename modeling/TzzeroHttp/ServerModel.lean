import TzzeroHttp.ParserIncremental
import TzzeroHttp.ResponseModel

/-! The HTTP server above one connection: the parser kept in the connection's context, the
request made for each message event, and what the server then does with the connection. -/
namespace TzzeroHttp.ServerModel
open ByteText HeaderMap BufferQueue RequestModel ResponseModel ParserModel ParserStream

abbrev HttpCallback := HttpRequest → HttpResponse → HttpResponse

structure HttpServer where
  httpCallback : Option HttpCallback := none
  keepAliveEnabled : Bool := true
  keepAliveTimeout : ℤ := 60

def HttpServer.setHttpCallback (server : HttpServer) (cb : HttpCallback) : HttpServer :=
  { server with httpCallback := some cb }

/-- What the server does to the world. `send r` is `append_to_buffer` of `r` into an empty
string and `send` of the result on the connection; `parseError` is the error branch. -/
inductive Effect
  | callback (req : HttpRequest)
  | send (response : HttpResponse)
  | parseError
  | shutdown

/-- The part of a connection the server works on; `context` is empty until a parser is set. -/
structure Session where
  context : Option HttpParser
  inputBuffer : ByteBuffer

def HttpServer.onConnection (connected : Bool) (s : Session) : Session :=
  if connected then { s with context := some {} } else s

def HttpServer.prepare (server : HttpServer) (req : HttpRequest) : HttpResponse :=
  let response : HttpResponse := {}
  let response := response.setHeader (ascii "Server") (ascii "TZZeroHTTP/1.0")
  let closeConnection := !req.keepAlive || !server.keepAliveEnabled
  let response := response.setCloseConnection closeConnection
  if closeConnection then response.setHeader (ascii "Connection") (ascii "close")
  else
    let response := response.setHeader (ascii "Connection") (ascii "keep-alive")
    if 0 < server.keepAliveTimeout then
      response.setHeader (ascii "Keep-Alive")
        (ascii "timeout=" ++ signedDecimal server.keepAliveTimeout)
    else response

def notFoundBody : Bytes := ascii "<html><body><h1>404 Not Found</h1></body></html>"

def HttpServer.onRequest (server : HttpServer) (req : HttpRequest) : List Effect :=
  let response := server.prepare req
  let answer (r : HttpResponse) : List Effect :=
    .send r :: if r.closeConnection then [.shutdown] else []
  match server.httpCallback with
  | some cb => .callback req :: answer (cb req response)
  | none =>
    answer (((response.setStatusCode .notFound).setHtmlContentType).setBody notFoundBody)

/-- One message event. A context without a parser gets a new one; the request is new in
every call. -/
def HttpServer.onMessage (server : HttpServer) (s : Session) : Session × List Effect :=
  let parser := s.context.getD {}
  let r := parseRequest ⟨parser, s.inputBuffer, {}⟩
  if r.1 then (⟨some r.2.parser.reset, r.2.buffer⟩, server.onRequest r.2.request)
  else if r.2.parser.hasError then (⟨some r.2.parser, r.2.buffer⟩, [.parseError, .shutdown])
  else (⟨some r.2.parser, r.2.buffer⟩, [])

/-- A read: the bytes go into the input buffer and the message callback runs. -/
def HttpServer.receive (server : HttpServer) (s : Session) (data : Bytes) : Session × List Effect :=
  server.onMessage { s with inputBuffer := s.inputBuffer.append data }

def HttpServer.deliver (server : HttpServer) (s : Session) : List Bytes → Session × List Effect
  | [] => (s, [])
  | chunk :: chunks =>
    let r := server.receive s chunk
    let rest := server.deliver r.1 chunks
    (rest.1, r.2 ++ rest.2)

def established (initial : ℕ) : Session :=
  HttpServer.onConnection true ⟨none, ByteBuffer.new initial⟩

def callbacks (effects : List Effect) : List HttpRequest :=
  effects.filterMap fun
    | .callback req => some req
    | _ => none

@[simp] theorem callbacks_nil : callbacks [] = [] := rfl

@[simp] theorem callbacks_append (a b : List Effect) :
    callbacks (a ++ b) = callbacks a ++ callbacks b := by
  simp [callbacks]

variable {server : HttpServer} {cb : HttpCallback}

@[simp] theorem callbacks_onRequest (req : HttpRequest) :
    callbacks ((server.setHttpCallback cb).onRequest req) = [req] := by
  unfold HttpServer.onRequest HttpServer.setHttpCallback callbacks
  simp only
  split_ifs <;> rfl

theorem parseError_not_mem_onRequest (req : HttpRequest) : .parseError ∉ server.onRequest req := by
  unfold HttpServer.onRequest
  cases server.httpCallback <;> simp only <;> split_ifs <;> simp

/-- One read, on the bytes: `z` is what the byte machine makes of the bytes kept so far, the
new ones, and an empty request. -/
theorem receive_eq (server : HttpServer) (s : Session) (data : Bytes) :
    let z := parseStream ⟨s.context.getD {}, s.inputBuffer.readable ++ data, {}⟩
    (server.receive s data).1.inputBuffer.readable = z.2.bytes ∧
      (server.receive s data).1.context = some (if z.1 then {} else z.2.parser) ∧
      (server.receive s data).2 = (if z.1 then server.onRequest z.2.request
        else if z.2.parser.hasError then [.parseError, .shutdown] else []) := by
  intro z
  have hview := parseRequest_view ⟨s.context.getD {}, s.inputBuffer.append data, {}⟩
  have hstart : view ⟨s.context.getD {}, s.inputBuffer.append data, {}⟩ =
      ⟨s.context.getD {}, s.inputBuffer.readable ++ data, {}⟩ := by
    simp [view]
  rw [hstart] at hview
  have hret : (parseRequest ⟨s.context.getD {}, s.inputBuffer.append data, {}⟩).1 = z.1 :=
    congrArg Prod.fst hview
  have hstate : view (parseRequest ⟨s.context.getD {}, s.inputBuffer.append data, {}⟩).2 = z.2 :=
    congrArg Prod.snd hview
  rw [← hret, ← hstate]
  simp only [HttpServer.receive, HttpServer.onMessage, view]
  split_ifs with hdone herr
  · simp [HttpParser.reset]
  · simp [herr]
  · simp [herr]

end TzzeroHttp.ServerModel
