import TzzeroHttp.HeaderMap

/-! The HTTP response object and its serialisation. The order in which an unordered map is
walked and the text of the current date are arguments of the serialiser. -/
namespace TzzeroHttp.ResponseModel
open ByteText HeaderMap

/-- `unlisted` stands for a value cast from outside the enumeration. -/
inductive HttpStatusCode
  | continue | switchingProtocols
  | ok | created | accepted | noContent | partialContent
  | movedPermanently | found | notModified | temporaryRedirect
  | badRequest | unauthorized | forbidden | notFound | methodNotAllowed | requestTimeout
  | lengthRequired | payloadTooLarge
  | internalServerError | notImplemented | badGateway | serviceUnavailable | gatewayTimeout
  | httpVersionNotSupported
  | unlisted (value : Int32)
  deriving DecidableEq, Repr

namespace HttpStatusCode

def value : HttpStatusCode → ℤ
  | .continue => 100
  | .switchingProtocols => 101
  | .ok => 200
  | .created => 201
  | .accepted => 202
  | .noContent => 204
  | .partialContent => 206
  | .movedPermanently => 301
  | .found => 302
  | .notModified => 304
  | .temporaryRedirect => 307
  | .badRequest => 400
  | .unauthorized => 401
  | .forbidden => 403
  | .notFound => 404
  | .methodNotAllowed => 405
  | .requestTimeout => 408
  | .lengthRequired => 411
  | .payloadTooLarge => 413
  | .internalServerError => 500
  | .notImplemented => 501
  | .badGateway => 502
  | .serviceUnavailable => 503
  | .gatewayTimeout => 504
  | .httpVersionNotSupported => 505
  | .unlisted v => v.toInt

def message : HttpStatusCode → Bytes
  | .continue => ascii "Continue"
  | .switchingProtocols => ascii "Switching Protocols"
  | .ok => ascii "OK"
  | .created => ascii "Created"
  | .accepted => ascii "Accepted"
  | .noContent => ascii "No Content"
  | .partialContent => ascii "Partial Content"
  | .movedPermanently => ascii "Moved Permanently"
  | .found => ascii "Found"
  | .notModified => ascii "Not Modified"
  | .temporaryRedirect => ascii "Temporary Redirect"
  | .badRequest => ascii "Bad Request"
  | .unauthorized => ascii "Unauthorized"
  | .forbidden => ascii "Forbidden"
  | .notFound => ascii "Not Found"
  | .methodNotAllowed => ascii "Method Not Allowed"
  | .requestTimeout => ascii "Request Timeout"
  | .lengthRequired => ascii "Length Required"
  | .payloadTooLarge => ascii "Payload Too Large"
  | .internalServerError => ascii "Internal Server Error"
  | .notImplemented => ascii "Not Implemented"
  | .badGateway => ascii "Bad Gateway"
  | .serviceUnavailable => ascii "Service Unavailable"
  | .gatewayTimeout => ascii "Gateway Timeout"
  | .httpVersionNotSupported => ascii "HTTP Version Not Supported"
  | .unlisted _ => ascii "Unknown"

end HttpStatusCode

structure HttpResponse where
  statusCode : HttpStatusCode := .ok
  closeConnection : Bool := false
  headers : Headers := ∅
  body : Bytes := []
  streamId : ℕ := 0

namespace HttpResponse

def getStatusMessage (r : HttpResponse) : Bytes := r.statusCode.message
def setStatusCode (r : HttpResponse) (code : HttpStatusCode) : HttpResponse :=
  { r with statusCode := code }
def setCloseConnection (r : HttpResponse) (close : Bool) : HttpResponse :=
  { r with closeConnection := close }

def addHeader (r : HttpResponse) (field value : Bytes) : HttpResponse :=
  { r with headers := r.headers.add field value }
def setHeader (r : HttpResponse) (field value : Bytes) : HttpResponse :=
  { r with headers := r.headers.set field value }
def getHeader (r : HttpResponse) (field : Bytes) : Bytes := r.headers.get field
def hasHeader (r : HttpResponse) (field : Bytes) : Bool := r.headers.has field
def removeHeader (r : HttpResponse) (field : Bytes) : HttpResponse :=
  { r with headers := r.headers.remove field }

/-- Writes the header only where there is none yet. -/
def ensureContentLength (r : HttpResponse) : HttpResponse :=
  if r.body ≠ [] ∧ r.hasHeader (ascii "content-length") = false then
    r.setHeader (ascii "content-length") (decimal r.body.length)
  else r

def setBody (r : HttpResponse) (body : Bytes) : HttpResponse :=
  ensureContentLength { r with body := body }
def appendBody (r : HttpResponse) (data : Bytes) : HttpResponse :=
  ensureContentLength { r with body := r.body ++ data }
def clearBody (r : HttpResponse) : HttpResponse := { r with body := [] }

def setContentType (r : HttpResponse) (contentType : Bytes) : HttpResponse :=
  r.setHeader (ascii "content-type") contentType
def setJsonContentType (r : HttpResponse) : HttpResponse :=
  r.setContentType (ascii "application/json; charset=utf-8")
def setHtmlContentType (r : HttpResponse) : HttpResponse :=
  r.setContentType (ascii "text/html; charset=utf-8")
def setTextContentType (r : HttpResponse) : HttpResponse :=
  r.setContentType (ascii "text/plain; charset=utf-8")

def redirectBody (url : Bytes) : Bytes :=
  ascii "<html><body><h1>Redirecting...</h1><p>Please follow <a href=\"" ++ url ++
    ascii "\">this link</a>.</p></body></html>"

def redirect (r : HttpResponse) (url : Bytes) (code : HttpStatusCode := .found) : HttpResponse :=
  (((r.setStatusCode code).setHeader (ascii "location") url).setHtmlContentType).setBody
    (redirectBody url)

def reset (_ : HttpResponse) : HttpResponse := {}

end HttpResponse

def fieldLine (f : Field) : Bytes := f.1 ++ (ascii ": " ++ (f.2 ++ crlf))

/-- `append_to_buffer`; `order` lists the entries of `headers_` as the map walks them and
`date` is what `strftime` prints. -/
def appendToBuffer (r : HttpResponse) (order : List Field) (date buffer : Bytes) : Bytes :=
  let buffer := buffer ++ ascii "HTTP/1.1 " ++ signedDecimal r.statusCode.value ++ ascii " " ++
    r.getStatusMessage ++ crlf
  let buffer := order.foldl (fun b f => b ++ fieldLine f) buffer
  let buffer := buffer ++ fieldLine ⟨ascii "connection",
    if r.closeConnection then ascii "close" else ascii "keep-alive"⟩
  let buffer := if r.hasHeader (ascii "server") then buffer
    else buffer ++ fieldLine ⟨ascii "server", ascii "TZZeroHTTP/1.0"⟩
  let buffer := if r.hasHeader (ascii "date") then buffer
    else buffer ++ fieldLine ⟨ascii "date", date⟩
  let buffer := buffer ++ crlf
  if r.body = [] then buffer else buffer ++ r.body

def toBuffer (r : HttpResponse) (order : List Field) (date : Bytes) : Bytes :=
  appendToBuffer r order date []

def statusLine (r : HttpResponse) : Bytes :=
  ascii "HTTP/1.1 " ++ (signedDecimal r.statusCode.value ++ (ascii " " ++ (r.getStatusMessage ++ crlf)))

def emittedFields (r : HttpResponse) (order : List Field) (date : Bytes) : List Field :=
  order ++
    ⟨ascii "connection", if r.closeConnection then ascii "close" else ascii "keep-alive"⟩ ::
    ((if r.hasHeader (ascii "server") then [] else [⟨ascii "server", ascii "TZZeroHTTP/1.0"⟩]) ++
      if r.hasHeader (ascii "date") then [] else [⟨ascii "date", date⟩])

theorem foldl_fieldLine (order : List Field) (buffer : Bytes) :
    order.foldl (fun b f => b ++ fieldLine f) buffer = buffer ++ (order.map fieldLine).flatten := by
  induction order generalizing buffer with
  | nil => simp
  | cons f order ih => simp [ih]

/-- The shape of a serialised response: status line, one line per field, a blank line, body. -/
theorem appendToBuffer_eq (r : HttpResponse) (order : List Field) (date buffer : Bytes) :
    appendToBuffer r order date buffer = buffer ++
      (statusLine r ++ (((emittedFields r order date).map fieldLine).flatten ++ (crlf ++ r.body))) := by
  have hbody : ∀ b : Bytes, (if r.body = [] then b else b ++ r.body) = b ++ r.body := by
    intro b
    split_ifs with h <;> simp [h]
  simp only [appendToBuffer, foldl_fieldLine, hbody, emittedFields, statusLine]
  by_cases hs : r.hasHeader (ascii "server") <;> by_cases hd : r.hasHeader (ascii "date") <;>
    simp [hs, hd]

theorem toBuffer_eq (r : HttpResponse) (order : List Field) (date : Bytes) :
    toBuffer r order date =
      statusLine r ++ (((emittedFields r order date).map fieldLine).flatten ++ (crlf ++ r.body)) :=
  appendToBuffer_eq r order date []

end TzzeroHttp.ResponseModel
