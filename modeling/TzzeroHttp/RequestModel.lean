import TzzeroHttp.HeaderMap

/-! The HTTP request object. `stream_id_` belongs to the reserved HTTP/2 interface; nothing
reads it back except its own getter. -/
namespace TzzeroHttp.RequestModel
open ByteText HeaderMap

inductive HttpMethod
  | invalid | get | post | put | delete | head | options | patch | connect | trace
  deriving DecidableEq, Repr

inductive HttpVersion
  | unknown | http10 | http11 | http20
  deriving DecidableEq, Repr

inductive ParseState
  | requestLine | headers | body | complete | error
  deriving DecidableEq, Repr

structure HttpRequest where
  method : HttpMethod := .invalid
  path : Bytes := []
  query : Bytes := []
  version : HttpVersion := .unknown
  headers : Headers := ∅
  body : Bytes := []
  parseState : ParseState := .requestLine
  streamId : ℕ := 0

namespace HttpRequest

def addHeader (q : HttpRequest) (field value : Bytes) : HttpRequest :=
  { q with headers := q.headers.add field value }
def setHeader (q : HttpRequest) (field value : Bytes) : HttpRequest :=
  { q with headers := q.headers.set field value }
def getHeader (q : HttpRequest) (field : Bytes) : Bytes := q.headers.get field
def hasHeader (q : HttpRequest) (field : Bytes) : Bool := q.headers.has field
def removeHeader (q : HttpRequest) (field : Bytes) : HttpRequest :=
  { q with headers := q.headers.remove field }
def setParseState (q : HttpRequest) (s : ParseState) : HttpRequest := { q with parseState := s }

/-- An absent, empty, unreadable or too large field counts as zero. -/
def getContentLength (q : HttpRequest) : ℕ :=
  let text := q.getHeader (ascii "content-length")
  if text = [] then 0 else (stoull text).getD 0

/-- HTTP/1.1 stays open unless told `close`; every other version closes unless told
`keep-alive`. -/
def keepAlive (q : HttpRequest) : Bool :=
  let connection := lower (q.getHeader (ascii "connection"))
  if q.version = .http11 then connection != ascii "close" else connection == ascii "keep-alive"

def reset (_ : HttpRequest) : HttpRequest := {}

def getMethodString (q : HttpRequest) : Bytes :=
  match q.method with
  | .get => ascii "GET"
  | .post => ascii "POST"
  | .put => ascii "PUT"
  | .delete => ascii "DELETE"
  | .head => ascii "HEAD"
  | .options => ascii "OPTIONS"
  | .patch => ascii "PATCH"
  | .connect => ascii "CONNECT"
  | .trace => ascii "TRACE"
  | .invalid => ascii "UNKNOWN"

def getVersionString (q : HttpRequest) : Bytes :=
  match q.version with
  | .http10 => ascii "HTTP/1.0"
  | .http11 => ascii "HTTP/1.1"
  | .http20 => ascii "HTTP/2.0"
  | .unknown => ascii "HTTP/1.1"

/-- `to_string`; `order` lists the entries of `headers_` as the map walks them. -/
def toString (q : HttpRequest) (order : List Field) : Bytes :=
  let oss := q.getMethodString ++ ascii " " ++ q.path
  let oss := if q.query = [] then oss else oss ++ ascii "?" ++ q.query
  let oss := oss ++ ascii " " ++ q.getVersionString ++ crlf
  let oss := order.foldl (fun oss header => oss ++ header.1 ++ ascii ": " ++ header.2 ++ crlf) oss
  let oss := oss ++ crlf
  if q.body = [] then oss else oss ++ q.body

end HttpRequest

end TzzeroHttp.RequestModel
