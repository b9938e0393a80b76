import TzzeroHttp.ParserIncremental
import TzzeroHttp.ParserLines

/-! The language of the parser. `Message` is a byte string that starts with one whole
request, `Violation` one whose header section has a bad complete line. The header phase is
run forwards along a given list of lines, and read backwards from its answer. -/
namespace TzzeroHttp.ParserGrammar
open ByteText HeaderMap BufferQueue RequestModel ParserModel ParserStream ParserLines
open ParserIncremental ListSearch

/-- A line is cut at the first CR LF, so it contains none. -/
def Unbroken (line : Bytes) : Prop := ¬ crlf <:+: line

def joinLines (lines : List Bytes) : Bytes := lines.flatMap (· ++ crlf)

/-- The table that a list of header lines builds through `add_header`. -/
def headerTable (fields : List Bytes) : Headers := fields.foldl addLine ∅

/-- What `get_content_length()` gives for a table. -/
def bodyLength (h : Headers) : ℕ := HttpRequest.getContentLength { headers := h }

def FieldLine (line : Bytes) : Prop := line ≠ [] ∧ Unbroken line ∧ HeaderLine line

/-- One request at the front of `s`: request line, header lines, blank line, a body of the
length the headers give, and what follows. -/
structure Message (s line : Bytes) (fields : List Bytes) (body rest : Bytes) : Prop where
  text : s = line ++ crlf ++ joinLines fields ++ crlf ++ body ++ rest
  unbroken : Unbroken line
  requestLine : ∃ m target v, RequestLine line m target v
  fields_ok : ∀ f ∈ fields, FieldLine f
  body_length : body.length = bodyLength (headerTable fields)

/-- A complete line before the end of the header section that breaks the grammar. -/
def Violation (s : Bytes) : Prop :=
  (∃ line rest, s = line ++ crlf ++ rest ∧ Unbroken line ∧
    ¬ ∃ m target v, RequestLine line m target v) ∨
  (∃ line fields field rest, s = line ++ crlf ++ joinLines fields ++ field ++ crlf ++ rest ∧
    Unbroken line ∧ (∀ f ∈ fields, f ≠ [] ∧ Unbroken f) ∧ field ≠ [] ∧ Unbroken field ∧
    ¬ HeaderLine field)

@[simp] theorem joinLines_nil : joinLines [] = [] := rfl

@[simp] theorem joinLines_cons (line : Bytes) (lines : List Bytes) :
    joinLines (line :: lines) = line ++ (crlf ++ joinLines lines) := by
  simp [joinLines]

theorem unbroken_nil : Unbroken [] := by
  simp [Unbroken, crlf]

theorem exists_cut {s : Bytes} (h : crlf <:+: s) :
    ∃ line rest, s = line ++ (crlf ++ rest) ∧ Unbroken line := by
  obtain ⟨i, hi⟩ := Option.ne_none_iff_exists'.mp fun hn => (search_eq_none_iff crlf s).mp hn h
  obtain ⟨hs, hun, -⟩ := search_eq_some hi
  rw [List.append_assoc] at hs
  exact ⟨_, _, hs, hun⟩

/-- What one round can do, by the state of the request: it takes a line, finds too few bytes,
takes the body, or has nothing to do. -/
theorem iteration_round (s : StreamState) :
    (∃ line rest, ReadsLines s.request ∧ Unbroken line ∧ s.bytes = line ++ (crlf ++ rest) ∧
      s.iteration = StreamState.resume rest (takeLine s.parser s.request line)) ∨
    (s.Starved ∧ s.iteration = .inr (false, s)) ∨
    (s.request.parseState = .body ∧ ∃ body rest, s.bytes = body ++ rest ∧ s.iteration =
      .inr (true, ⟨s.parser, rest, { s.request with body := body, parseState := .complete }⟩)) ∨
    (s.request.parseState = .complete ∧ s.iteration = .inr (true, s)) ∨
    (s.request.parseState = .error ∧
      s.iteration = .inr (false, ⟨{ s.parser with hasError := true }, s.bytes, s.request⟩)) := by
  by_cases hl : ReadsLines s.request
  · cases hf : search crlf s.bytes with
    | none =>
      have hst : s.Starved := .inl ⟨hl, (search_eq_none_iff _ _).mp hf⟩
      exact .inr (.inl ⟨hst, iteration_starved hst⟩)
    | some i =>
      obtain ⟨hs, hun, -⟩ := search_eq_some hf
      rw [List.append_assoc] at hs
      exact .inl ⟨_, _, hl, hun, hs, iteration_line hl hf⟩
  · cases hs : s.request.parseState with
    | requestLine => exact absurd (Or.inl hs) hl
    | headers => exact absurd (Or.inr hs) hl
    | body =>
      by_cases hlen : s.parser.contentLength ≤ s.bytes.length
      · have hsplit := (List.take_append_drop s.parser.contentLength s.bytes).symm
        refine .inr (.inr (.inl ⟨rfl, _, _, hsplit, ?_⟩))
        simp only [StreamState.iteration, if_neg hl, hs, if_pos hlen]
      · have hst : s.Starved := .inr ⟨hs, not_le.mp hlen⟩
        exact .inr (.inl ⟨hst, iteration_starved hst⟩)
    | complete =>
      refine .inr (.inr (.inr (.inl ⟨rfl, ?_⟩)))
      simp only [StreamState.iteration, if_neg hl, hs]
    | error =>
      refine .inr (.inr (.inr (.inr ⟨rfl, ?_⟩)))
      simp only [StreamState.iteration, if_neg hl, hs]

theorem resume_elim (rest : Bytes)
    (next : (HttpParser × HttpRequest) ⊕ (Bool × HttpParser × HttpRequest)) :
    (StreamState.resume rest next).elim id Prod.snd =
      ⟨(next.elim id Prod.snd).1, rest, (next.elim id Prod.snd).2⟩ := by
  cases next <;> rfl

theorem parseStream_keeps {P : StreamState → Prop}
    (hround : ∀ s, P s → P (s.iteration.elim id Prod.snd)) {s : StreamState} (hs : P s) :
    P (parseStream s).2 := by
  refine streamLoop.run_induction (P := fun s x => P s → P x.2) ?_ ?_ s hs
  · intro s x hx hs
    have hnext := hround s hs
    rw [show s.iteration = .inr x from hx] at hnext
    exact hnext
  · intro s s' hgo ih hs
    have hnext := hround s hs
    rw [show s.iteration = .inl s' from hgo] at hnext
    exact ih hnext

/-- Reading one line in front of the stream. -/
theorem parseStream_cut {p : HttpParser} {q : HttpRequest} {line rest : Bytes}
    (hl : ReadsLines q) (hline : Unbroken line) :
    parseStream ⟨p, line ++ (crlf ++ rest), q⟩ =
      match takeLine p q line with
      | .inl (p', q') => parseStream ⟨p', rest, q'⟩
      | .inr (r, p', q') => (r, ⟨p', rest, q'⟩) := by
  have hit : (StreamState.mk p (line ++ (crlf ++ rest)) q).iteration =
      StreamState.resume rest (takeLine p q line) := by
    have hs : search crlf (line ++ (crlf ++ rest)) = some line.length := by
      rw [← List.append_assoc]
      exact search_line cr_ne_lf hline rest
    rw [iteration_line (s := ⟨p, _, q⟩) hl hs]
    simp [crlf]
  cases ht : takeLine p q line with
  | inl pq =>
    rw [ht] at hit
    exact parseStream_line hit
  | inr rpq =>
    rw [ht] at hit
    exact streamLoop.run_leave hit

theorem parseStream_body {p : HttpParser} {q : HttpRequest} {body rest : Bytes}
    (hq : q.parseState = .body) (hlen : body.length = p.contentLength) :
    parseStream ⟨p, body ++ rest, q⟩ =
      (true, ⟨p, rest, { q with body := body, parseState := .complete }⟩) := by
  apply streamLoop.run_leave
  have hl : ¬ ReadsLines q := by simp [ReadsLines, hq]
  have hle : body.length ≤ (body ++ rest).length := by
    rw [List.length_append]
    omega
  show StreamState.iteration _ = _
  simp only [StreamState.iteration, if_neg hl, hq, ← hlen, if_pos hle, List.take_left,
    List.drop_left]

variable {p : HttpParser} {q : HttpRequest}

theorem parseStream_body_split {t : Bytes} (hq : q.parseState = .body)
    (hle : p.contentLength ≤ t.length) :
    parseStream ⟨p, t, q⟩ = (true, ⟨p, t.drop p.contentLength,
      { q with body := t.take p.contentLength, parseState := .complete }⟩) := by
  rw [← parseStream_body hq (List.length_take_of_le hle), List.take_append_drop]

theorem blank_complete {body rest : Bytes} (hq : q.parseState = .headers) (hqb : q.body = [])
    (hlen : body.length = bodyLength q.headers) :
    ∃ p', p'.hasError = p.hasError ∧ parseStream ⟨p, crlf ++ (body ++ rest), q⟩ =
      (true, ⟨p', rest, { q with body := body, parseState := .complete }⟩) := by
  rw [← List.nil_append (crlf ++ (body ++ rest)), parseStream_cut (Or.inr hq) unbroken_nil]
  by_cases hz : q.getContentLength = 0
  · have hnil : body = [] := List.length_eq_zero_iff.mp (hlen.trans hz)
    subst hnil
    rw [takeLine_blank_empty hq hz]
    refine ⟨{ p with contentLength := 0 }, rfl, ?_⟩
    simp [HttpRequest.setParseState, ← hqb]
  · rw [takeLine_blank_body hq (Nat.pos_of_ne_zero hz)]
    exact ⟨⟨p.hasError, q.getContentLength, true⟩, rfl, parseStream_body rfl hlen⟩

theorem headers_complete (p : HttpParser) {fields : List Bytes} {body : Bytes} (rest : Bytes)
    (hq : q.parseState = .headers) (hqb : q.body = []) (hf : ∀ f ∈ fields, FieldLine f)
    (hlen : body.length = bodyLength (fields.foldl addLine q.headers)) :
    ∃ p', p'.hasError = p.hasError ∧
      parseStream ⟨p, joinLines fields ++ (crlf ++ (body ++ rest)), q⟩ =
        (true, ⟨p', rest, { q with
          headers := fields.foldl addLine q.headers, body := body, parseState := .complete }⟩) := by
  induction fields generalizing q with
  | nil => exact blank_complete hq hqb hlen
  | cons f fields ih =>
    obtain ⟨hne, hun, hh⟩ := hf f (by simp)
    obtain ⟨p', hp', hrun⟩ := ih (q := { q with headers := addLine q.headers f }) hq hqb
      (fun g hg => hf g (by simp [hg])) hlen
    refine ⟨p', hp', ?_⟩
    rw [joinLines_cons, List.append_assoc, List.append_assoc, parseStream_cut (Or.inr hq) hun,
      takeLine_header hq hne hh]
    exact hrun

/-- A bad header line before the blank line sets the error flag, whatever stands between. -/
theorem headers_violation {fields : List Bytes} {field rest : Bytes} (hq : q.parseState = .headers)
    (hf : ∀ f ∈ fields, f ≠ [] ∧ Unbroken f) (hne : field ≠ []) (hun : Unbroken field)
    (hbad : ¬ HeaderLine field) :
    (parseStream ⟨p, joinLines fields ++ (field ++ (crlf ++ rest)), q⟩).1 = false ∧
      (parseStream ⟨p, joinLines fields ++ (field ++ (crlf ++ rest)), q⟩).2.parser.hasError = true := by
  induction fields generalizing q with
  | nil =>
    rw [joinLines_nil, List.nil_append, parseStream_cut (Or.inr hq) hun,
      takeLine_header_bad hq hne hbad]
    exact ⟨rfl, rfl⟩
  | cons f fields ih =>
    obtain ⟨hfne, hfun⟩ := hf f (by simp)
    rw [joinLines_cons, List.append_assoc, List.append_assoc, parseStream_cut (Or.inr hq) hfun]
    by_cases hok : HeaderLine f
    · rw [takeLine_header hq hfne hok]
      exact ih (q := { q with headers := addLine q.headers f }) hq fun g hg => hf g (by simp [hg])
    · rw [takeLine_header_bad hq hfne hok]
      exact ⟨rfl, rfl⟩

/-- Reading the answer of the header phase back: completion comes from a whole header section
and body, an error from a bad line. -/
theorem headers_backward (s : Bytes) (p : HttpParser) (q : HttpRequest) (hq : q.parseState = .headers) :
    ((parseStream ⟨p, s, q⟩).1 = true → ∃ fields body rest,
      s = joinLines fields ++ (crlf ++ (body ++ rest)) ∧ (∀ f ∈ fields, FieldLine f) ∧
      body.length = bodyLength (fields.foldl addLine q.headers)) ∧
    ((parseStream ⟨p, s, q⟩).2.parser.hasError = true → p.hasError = true ∨ ∃ fields field rest,
      s = joinLines fields ++ (field ++ (crlf ++ rest)) ∧ (∀ f ∈ fields, f ≠ [] ∧ Unbroken f) ∧
      field ≠ [] ∧ Unbroken field ∧ ¬ HeaderLine field) := by
  induction hn : s.length using Nat.strong_induction_on generalizing s p q with
  | _ n ih =>
    subst hn
    by_cases hcut : crlf <:+: s
    · obtain ⟨line, rest, rfl, hun⟩ := exists_cut hcut
      rw [parseStream_cut (Or.inr hq) hun]
      by_cases hne : line = []
      · subst hne
        by_cases hz : q.getContentLength = 0
        · rw [takeLine_blank_empty hq hz]
          exact ⟨fun _ => ⟨[], [], rest, by simp, by simp, hz.symm⟩, .inl⟩
        · rw [takeLine_blank_body hq (Nat.pos_of_ne_zero hz)]
          by_cases hle : q.getContentLength ≤ rest.length
          · have hb := parseStream_body_split (p := ⟨p.hasError, q.getContentLength, true⟩)
              (q := q.setParseState .body) rfl hle
            simp only [hb]
            exact ⟨fun _ => ⟨[], rest.take q.getContentLength, rest.drop q.getContentLength,
              by simp, by simp, (List.length_take_of_le hle).trans rfl⟩, .inl⟩
          · have hst : (StreamState.mk ⟨p.hasError, q.getContentLength, true⟩ rest
                (q.setParseState .body)).Starved := .inr ⟨rfl, by simpa using hle⟩
            simp only [parseStream_starved hst]
            exact ⟨by simp, .inl⟩
      · by_cases hok : HeaderLine line
        · rw [takeLine_header hq hne hok]
          obtain ⟨h₁, h₂⟩ := ih rest.length (by simp [crlf]; omega) rest p
            { q with headers := addLine q.headers line } hq rfl
          refine ⟨fun h => ?_, fun h => ?_⟩
          · obtain ⟨fields, body, rest', hr, hf, hlen⟩ := h₁ h
            refine ⟨line :: fields, body, rest', by simp [hr], ?_, hlen⟩
            simpa using ⟨⟨hne, hun, hok⟩, hf⟩
          · rcases h₂ h with hp | ⟨fields, field, rest', hr, hf, hbad⟩
            · exact .inl hp
            · refine .inr ⟨line :: fields, field, rest', by simp [hr], ?_, hbad⟩
              simpa using ⟨⟨hne, hun⟩, hf⟩
        · rw [takeLine_header_bad hq hne hok]
          exact ⟨by simp, fun _ => .inr ⟨[], line, rest, by simp, by simp, hne, hun, hok⟩⟩
    · have hst : (StreamState.mk p s q).Starved := .inl ⟨.inr hq, hcut⟩
      rw [parseStream_starved hst]
      exact ⟨by simp, .inl⟩

def messageRequest (m : HttpMethod) (target : Bytes) (v : HttpVersion) (fields : List Bytes)
    (body : Bytes) : HttpRequest :=
  { setTarget { method := m } target with
    version := v, headers := headerTable fields, body := body, parseState := .complete }

theorem message_complete {s line body rest : Bytes} {fields : List Bytes}
    (h : Message s line fields body rest) {m : HttpMethod} {target : Bytes} {v : HttpVersion}
    (hline : RequestLine line m target v) (p : HttpParser) :
    ∃ p', p'.hasError = p.hasError ∧
      parseStream ⟨p, s, {}⟩ = (true, ⟨p', rest, messageRequest m target v fields body⟩) := by
  obtain ⟨hhead, hbody, -⟩ := setTarget_headers { method := m } target
  obtain ⟨p', hp', hrun⟩ := headers_complete p rest
    (q := { setTarget { method := m } target with version := v, parseState := .headers }) rfl hbody
    h.fields_ok (by rw [h.body_length]; simp only [hhead]; rfl)
  refine ⟨p', hp', ?_⟩
  have htext : s = line ++ (crlf ++ (joinLines fields ++ (crlf ++ (body ++ rest)))) := by
    simpa only [List.append_assoc] using h.text
  rw [htext, parseStream_cut (Or.inl rfl) h.unbroken, takeLine_request rfl hline]
  refine hrun.trans ?_
  simp only [messageRequest, headerTable, hhead]

theorem message_of_complete {s : Bytes} {p : HttpParser} (h : (parseStream ⟨p, s, {}⟩).1 = true) :
    ∃ line fields body rest, Message s line fields body rest := by
  by_cases hcut : crlf <:+: s
  · obtain ⟨line, rest, rfl, hun⟩ := exists_cut hcut
    rw [parseStream_cut (Or.inl rfl) hun] at h
    by_cases hok : ∃ m target v, RequestLine line m target v
    · obtain ⟨m, target, v, hline⟩ := hok
      rw [takeLine_request rfl hline] at h
      obtain ⟨fields, body, rest', rfl, hf, hlen⟩ := (headers_backward rest _ _ rfl).1 h
      simp only [(setTarget_headers { method := m } target).1] at hlen
      exact ⟨line, fields, body, rest', by simp, hun, ⟨m, target, v, hline⟩, hf, hlen⟩
    · rw [takeLine_request_bad rfl hok] at h
      cases h
  · rw [parseStream_starved (.inl ⟨.inl rfl, hcut⟩)] at h
    cases h

theorem violation_error {s : Bytes} (h : Violation s) (p : HttpParser) :
    (parseStream ⟨p, s, {}⟩).1 = false ∧ (parseStream ⟨p, s, {}⟩).2.parser.hasError = true := by
  rcases h with ⟨line, rest, rfl, hun, hbad⟩ | ⟨line, fields, field, rest, rfl, hun, hf, hne, hfun, hbad⟩
  · rw [List.append_assoc, parseStream_cut (Or.inl rfl) hun, takeLine_request_bad rfl hbad]
    exact ⟨rfl, rfl⟩
  · simp only [List.append_assoc]
    rw [parseStream_cut (Or.inl rfl) hun]
    by_cases hok : ∃ m target v, RequestLine line m target v
    · obtain ⟨m, target, v, hline⟩ := hok
      rw [takeLine_request rfl hline]
      exact headers_violation rfl hf hne hfun hbad
    · rw [takeLine_request_bad rfl hok]
      exact ⟨rfl, rfl⟩

theorem violation_of_error {s : Bytes} {p : HttpParser} (hp : p.hasError = false)
    (h : (parseStream ⟨p, s, {}⟩).2.parser.hasError = true) : Violation s := by
  by_cases hcut : crlf <:+: s
  · obtain ⟨line, rest, rfl, hun⟩ := exists_cut hcut
    rw [parseStream_cut (Or.inl rfl) hun] at h
    by_cases hok : ∃ m target v, RequestLine line m target v
    · obtain ⟨m, target, v, hline⟩ := hok
      rw [takeLine_request rfl hline] at h
      rcases (headers_backward rest _ _ rfl).2 h with hp' | ⟨fields, field, rest', rfl, hf, hne, hfun, hbad⟩
      · simp [hp] at hp'
      · exact .inr ⟨line, fields, field, rest', by simp, hun, hf, hne, hfun, hbad⟩
    · exact .inl ⟨line, rest, by simp, hun, hok⟩
  · rw [parseStream_starved (.inl ⟨.inl rfl, hcut⟩)] at h
    simp [hp] at h

/-- The parser accepts exactly its grammar: a call on a fresh parser, request and buffer
returns true exactly on messages, then holds what the message says and leaves the rest; and it
reports an error exactly when a complete line of the header section breaks the grammar. -/
theorem parseRequest_grammar (initial : ℕ) (s : Bytes) :
    let r := parseRequest (arrive (fresh initial) s)
    (r.1 = true ↔ ∃ line fields body rest, Message s line fields body rest) ∧
    (∀ line fields body rest m target v, Message s line fields body rest →
      RequestLine line m target v →
        r.2.request.method = m ∧ r.2.request.version = v ∧
        TargetSplit target r.2.request.path r.2.request.query ∧
        r.2.request.headers = headerTable fields ∧ r.2.request.body = body ∧
        r.2.request.parseState = .complete ∧ r.2.buffer.readable = rest) ∧
    (r.2.parser.hasError = true ↔ Violation s) := by
  intro r
  obtain ⟨hret, hview⟩ := parseRequest_fresh initial s
  have hreq : r.2.request = (parseStream ⟨{}, s, {}⟩).2.request := congrArg StreamState.request hview
  have hbytes : r.2.buffer.readable = (parseStream ⟨{}, s, {}⟩).2.bytes := congrArg StreamState.bytes hview
  have herr : r.2.parser = (parseStream ⟨{}, s, {}⟩).2.parser := congrArg StreamState.parser hview
  refine ⟨⟨fun h => message_of_complete (hret.symm.trans h), ?_⟩, ?_, ?_, ?_⟩
  · rintro ⟨line, fields, body, rest, hm⟩
    obtain ⟨m, target, v, hline⟩ := hm.requestLine
    obtain ⟨p', -, hrun⟩ := message_complete hm hline {}
    exact hret.trans (by rw [hrun])
  · intro line fields body rest m target v hm hline
    obtain ⟨p', -, hrun⟩ := message_complete hm hline {}
    rw [hreq, hbytes, hrun]
    exact ⟨(setTarget_headers { method := m } target).2.2, rfl, setTarget_split rfl target, rfl, rfl,
      rfl, rfl⟩
  · intro h
    exact violation_of_error rfl (herr ▸ h)
  · intro h
    rw [herr]
    exact (violation_error h {}).2

end TzzeroHttp.ParserGrammar
