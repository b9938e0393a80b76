import TzzeroHttp.BoundedLoop
import TzzeroHttp.BufferQueue
import TzzeroHttp.RequestModel

/-! The streaming request parser. The progress of a parse lives in three objects: the
buffer it consumes, the request it fills, and the parser, which keeps the body length and
the error flag. `ParseContext` holds the three; `parseRequest` is the source's
`while (true)` loop over it. -/
namespace TzzeroHttp.ParserModel
open ByteText BoundedLoop BufferQueue RequestModel HeaderMap

structure HttpParser where
  hasError : Bool := false
  contentLength : ℕ := 0
  expectBody : Bool := false
  deriving DecidableEq, Repr

def HttpParser.reset (_ : HttpParser) : HttpParser := {}

def stringToMethod (s : Bytes) : HttpMethod :=
  if s = ascii "GET" then .get
  else if s = ascii "POST" then .post
  else if s = ascii "PUT" then .put
  else if s = ascii "DELETE" then .delete
  else if s = ascii "HEAD" then .head
  else if s = ascii "OPTIONS" then .options
  else if s = ascii "PATCH" then .patch
  else if s = ascii "CONNECT" then .connect
  else if s = ascii "TRACE" then .trace
  else .invalid

def stringToVersion (s : Bytes) : HttpVersion :=
  if s = ascii "HTTP/1.0" then .http10
  else if s = ascii "HTTP/1.1" then .http11
  else if s = ascii "HTTP/2.0" then .http20
  else .unknown

/-- `iss >> method_str >> path_and_query >> version_str`; anything after it is ignored. -/
def extractThree (line : Bytes) : Option (Bytes × Bytes × Bytes) :=
  (extractWord line).bind fun (a, rest) =>
    (extractWord rest).bind fun (b, rest) =>
      (extractWord rest).map fun (c, _) => (a, b, c)

def question : UInt8 := 63

/-- `path_and_query.find('?')` and the two setters. -/
def setTarget (q : HttpRequest) (target : Bytes) : HttpRequest :=
  match target.idxOf? question with
  | some i => { q with path := target.take i, query := target.drop (i + 1) }
  | none => { q with path := target }

/-- On failure the request keeps what was stored before the failing check. -/
def parseRequestLine (line : Bytes) (q : HttpRequest) : Bool × HttpRequest :=
  match extractThree line with
  | none => (false, q)
  | some (methodStr, target, versionStr) =>
    let method := stringToMethod methodStr
    if method = .invalid then (false, q)
    else
      let q := setTarget { q with method := method } target
      let version := stringToVersion versionStr
      if version = .unknown then (false, q) else (true, { q with version := version })

def headerField (line : Bytes) (colonPos : ℕ) : Bytes :=
  trimLeft isBlank (trimRight isBlank (line.take colonPos))

def headerValue (line : Bytes) (colonPos : ℕ) : Bytes :=
  trimLeft isBlank (trimRight isBlankOrEol (line.drop (colonPos + 1)))

def parseHeaderLine (line : Bytes) (q : HttpRequest) : Bool × HttpRequest :=
  match line.idxOf? colon with
  | none => (false, q)
  | some i =>
    if headerField line i = [] then (false, q)
    else (true, q.addHeader (headerField line i) (headerValue line i))

structure ParseContext where
  parser : HttpParser
  buffer : ByteBuffer
  request : HttpRequest

namespace ParseContext

/-- `has_error_ = true; return false`, with the buffer and request as they are by then. -/
def fail (c : ParseContext) (b : ByteBuffer) (q : HttpRequest) : Bool × ParseContext :=
  (false, ⟨{ c.parser with hasError := true }, b, q⟩)

/-- One round of the loop: `.inl` goes round again, `.inr` is `return` or `break`. -/
def parseIteration (c : ParseContext) : ParseContext ⊕ (Bool × ParseContext) :=
  match c.request.parseState with
  | .requestLine =>
    match c.buffer.findCrlf with
    | none => .inr (false, c)
    | some i =>
      let line := c.buffer.peekString i
      let buffer := c.buffer.retrieve (i + 2)
      let r := parseRequestLine line c.request
      if r.1 then .inl ⟨c.parser, buffer, r.2.setParseState .headers⟩
      else .inr (c.fail buffer r.2)
  | .headers =>
    match c.buffer.findCrlf with
    | none => .inr (false, c)
    | some i =>
      let line := c.buffer.peekString i
      let buffer := c.buffer.retrieve (i + 2)
      if line = [] then
        let parser : HttpParser := { c.parser with contentLength := c.request.getContentLength }
        if 0 < parser.contentLength then
          .inl ⟨{ parser with expectBody := true }, buffer, c.request.setParseState .body⟩
        else .inr (true, ⟨parser, buffer, c.request.setParseState .complete⟩)
      else
        let r := parseHeaderLine line c.request
        if r.1 then .inl ⟨c.parser, buffer, r.2⟩ else .inr (c.fail buffer r.2)
  | .body =>
    if c.parser.contentLength ≤ c.buffer.readableBytes then
      let r := c.buffer.retrieveAsString c.parser.contentLength
      .inr (true, ⟨c.parser, r.2, { c.request with body := r.1, parseState := .complete }⟩)
    else .inr (false, c)
  | .complete => .inr (true, c)
  | .error => .inr (c.fail c.buffer c.request)

end ParseContext

theorem findCrlf_bound {b : ByteBuffer} {i : ℕ} (h : b.findCrlf = some i) :
    i + 2 ≤ b.readable.length := by
  rw [b.findCrlf_eq] at h
  exact ListSearch.search_lt_length h

/-- Every round that does not leave the loop consumes a line with its CR LF. -/
theorem parseIteration_decreases (c c' : ParseContext) (h : c.parseIteration = .inl c') :
    c'.buffer.readable.length < c.buffer.readable.length := by
  have hline : ∀ i, c.buffer.findCrlf = some i →
      (c.buffer.retrieve (i + 2)).readable.length < c.buffer.readable.length := by
    intro i hi
    have := findCrlf_bound hi
    rw [ByteBuffer.readable_retrieve, List.length_drop]
    omega
  unfold ParseContext.parseIteration at h
  cases hs : c.request.parseState with
  | requestLine =>
    simp only [hs] at h
    cases hf : c.buffer.findCrlf with
    | none => simp [hf] at h
    | some i =>
      simp only [hf] at h
      split_ifs at h
      obtain rfl := Sum.inl.inj h
      exact hline i hf
  | headers =>
    simp only [hs] at h
    cases hf : c.buffer.findCrlf with
    | none => simp [hf] at h
    | some i =>
      simp only [hf] at h
      split_ifs at h <;> obtain rfl := Sum.inl.inj h <;> exact hline i hf
  | body =>
    simp only [hs] at h
    split_ifs at h
  | complete => simp [hs] at h
  | error => simp [hs] at h

def parseLoop : Loop ParseContext (Bool × ParseContext) where
  iteration := ParseContext.parseIteration
  measure c := c.buffer.readable.length
  decreases := parseIteration_decreases

def parseRequest (c : ParseContext) : Bool × ParseContext := parseLoop.run c

end TzzeroHttp.ParserModel
