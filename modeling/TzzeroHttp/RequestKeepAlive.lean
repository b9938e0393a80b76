import TzzeroHttp.ParserContentLength

/-! Whether a client's wish to close the connection is honoured. Its Connection lines are
lists of options, separated by commas; `keep_alive` compares the joined text of all of them
with one option. -/
namespace TzzeroHttp.RequestKeepAlive
open ByteText HeaderMap BufferQueue RequestModel ParserModel ParserStream ParserLines
open ParserIncremental ParserGrammar ParserContentLength ListSearch

def comma : UInt8 := 44

def options (value : Bytes) : List Bytes :=
  (value.splitOn comma).map fun token => lower (trimLeft isBlank (trimRight isBlank token))

def connectionValues (fields : List Bytes) : List Bytes := valuesOf (ascii "connection") fields

/-- Some Connection line has the option in its list. -/
def Lists (option : Bytes) (fields : List Bytes) : Prop :=
  ∃ value ∈ connectionValues fields, option ∈ options value

/-- An HTTP/1.1 connection is not kept when `close` is listed; an HTTP/1.0 connection is kept
only when `keep-alive` is listed and `close` is not. -/
def Honoured (q : HttpRequest) (fields : List Bytes) : Prop :=
  (q.version = .http11 → Lists (ascii "close") fields → q.keepAlive = false) ∧
  (q.version = .http10 → q.keepAlive = true →
    Lists (ascii "keep-alive") fields ∧ ¬ Lists (ascii "close") fields)

theorem comma_mem_lower {s : Bytes} (h : comma ∈ s) : comma ∈ lower s := by
  have hcomma : toLower comma = comma := by decide
  rw [lower, ← hcomma]
  exact List.mem_map_of_mem h

/-- The joined text is one option only if there is one line and it says just that. -/
theorem joined_eq_option {values : List Bytes} {option : Bytes} (hne : option ≠ [])
    (hcomma : comma ∉ option) :
    lower ((joinValues values).getD []) = option ↔ ∃ v, values = [v] ∧ lower v = option := by
  cases values with
  | nil =>
    simp only [joinValues, Option.getD_none, List.nil_eq, reduceCtorEq, false_and, exists_false, iff_false]
    exact fun h => hne h.symm
  | cons v vs =>
    cases vs with
    | nil => simp [joinValues]
    | cons w vs =>
      have hjoined : comma ∈ v ++ (w :: vs).flatMap (ascii ", " ++ ·) := by
        simp [separator_eq, comma]
      simp only [joinValues, Option.getD_some, List.cons.injEq, reduceCtorEq, and_false, false_and,
        exists_false, iff_false]
      intro h
      exact hcomma (h ▸ comma_mem_lower hjoined)

/-- A value that is one plain option up to case is the list of that option. -/
theorem options_eq {v option : Bytes} (h : lower v = option) (hcomma : comma ∉ option)
    (hblank : ∀ c ∈ option, isBlank c = false) : options v = [option] := by
  have hbyte : ∀ c, isBlank (toLower c) = false → isBlank c = false := by decide +kernel
  have hsplit : v.splitOn comma = [v] := by
    apply List.splitOn_eq_singleton
    exact fun hm => hcomma (h ▸ comma_mem_lower hm)
  have hplain : ∀ c ∈ v, isBlank c = false := by
    intro c hc
    apply hbyte
    exact hblank _ (h ▸ List.mem_map_of_mem hc)
  rw [options, hsplit, List.map_singleton, trim_of_no_blank hplain, h]

def Holds (q : HttpRequest) (fields : List Bytes) : Prop :=
  q.headers.lookup (ascii "connection") = joinValues (connectionValues fields)

theorem keepAlive_eq {q : HttpRequest} {fields : List Bytes} (hq : Holds q fields) :
    lower (q.getHeader (ascii "connection")) =
      lower ((joinValues (connectionValues fields)).getD []) := by
  have hlow : lower (ascii "connection") = ascii "connection" := by decide
  rw [HttpRequest.getHeader, Headers.get, hlow, hq]

theorem honoured_iff {q : HttpRequest} {fields : List Bytes} (hq : Holds q fields) :
    Honoured q fields ↔ (q.version = .http11 → Lists (ascii "close") fields →
      ∃ v, connectionValues fields = [v] ∧ lower v = ascii "close") := by
  have hclose : q.version = .http11 →
      (q.keepAlive = false ↔ ∃ v, connectionValues fields = [v] ∧ lower v = ascii "close") := by
    intro hversion
    rw [← joined_eq_option (by decide) (by decide), ← keepAlive_eq hq]
    simp [HttpRequest.keepAlive, hversion]
  have hkept : q.version = .http10 → q.keepAlive = true →
      Lists (ascii "keep-alive") fields ∧ ¬ Lists (ascii "close") fields := by
    intro hversion hkeep
    have hsame : lower (q.getHeader (ascii "connection")) = ascii "keep-alive" := by
      simpa [HttpRequest.keepAlive, hversion] using hkeep
    rw [keepAlive_eq hq, joined_eq_option (by decide) (by decide)] at hsame
    obtain ⟨v, hvalues, hv⟩ := hsame
    have hblank : ∀ c ∈ ascii "keep-alive", isBlank c = false := by
      have hall : (ascii "keep-alive").all (!isBlank ·) = true := by decide
      simpa [List.all_eq_true] using hall
    have hoptions : options v = [ascii "keep-alive"] := options_eq hv (by decide) hblank
    have hne : ascii "close" ≠ ascii "keep-alive" := by decide
    unfold Lists
    simp [hvalues, hoptions, hne]
  constructor
  · intro h hversion hlists
    exact (hclose hversion).mp (h.1 hversion hlists)
  · intro h
    exact ⟨fun hversion hlists => (hclose hversion).mpr (h hversion hlists), hkept⟩

def isRequestLine (line : Bytes) : Bool := (parseRequestLine line {}).1

/-- The header lines of the first request in a stream: those between the first line that is a
request line and the next empty line. -/
def headerLines (s : Bytes) : List Bytes :=
  (((pieces cr lf s).dropWhile (!isRequestLine ·)).tail).takeWhile (· ≠ [])

theorem isRequestLine_iff {line : Bytes} :
    isRequestLine line = true ↔ ∃ m target v, RequestLine line m target v := by
  constructor
  · intro h
    by_contra hbad
    rw [isRequestLine, parseRequestLine_bad hbad] at h
    cases h
  · rintro ⟨m, target, v, hline⟩
    rw [isRequestLine, parseRequestLine_ok hline]

theorem pieces_joinLines {ls : List Bytes} (h : ∀ l ∈ ls, Unbroken l) (rest : Bytes) :
    pieces cr lf (joinLines ls ++ rest) = ls ++ pieces cr lf rest := by
  induction ls with
  | nil => rfl
  | cons l ls ih =>
    have hfirst := pieces_append cr_ne_lf l (joinLines ls ++ rest)
    rw [pieces_unbroken (h l (by simp)), ih fun k hk => h k (by simp [hk])] at hfirst
    rw [joinLines_cons, List.append_assoc, List.append_assoc]
    exact hfirst

/-- Once the empty line is there, what follows does not matter. -/
theorem headerLines_eq {bad fields : List Bytes} {line : Bytes}
    (hls : ∀ l ∈ bad ++ line :: fields, Unbroken l) (hbad : ∀ l ∈ bad, isRequestLine l = false)
    (hline : isRequestLine line = true) (hfields : [] ∉ fields) (rest : Bytes) :
    headerLines (joinLines (bad ++ line :: fields) ++ (crlf ++ rest)) = fields := by
  have hblank : pieces cr lf (crlf ++ rest) = [] :: pieces cr lf rest :=
    pieces_append cr_ne_lf [] rest
  have hskip : ∀ l ∈ bad, (!isRequestLine l) = true := fun l hl => by simp [hbad l hl]
  have hfull : ∀ l ∈ fields, decide (l ≠ []) = true := by
    intro l hl
    simp only [decide_eq_true_eq]
    rintro rfl
    exact hfields hl
  rw [headerLines, pieces_joinLines hls, hblank, List.append_assoc, List.dropWhile_append_of_pos hskip,
    List.cons_append, List.dropWhile_cons_of_neg (by simp [hline]), List.tail_cons,
    List.takeWhile_append_of_pos hfull]
  simp

/-- What has been read of the stream `s`: lines that are no request line; then a request line
and header lines, good or bad; and then all of the header lines. -/
def Read (s : Bytes) (st : StreamState) : Prop :=
  match st.request.parseState with
  | .requestLine => Holds st.request [] ∧ ∃ bad, s = joinLines bad ++ st.bytes ∧
      ∀ l ∈ bad, Unbroken l ∧ isRequestLine l = false
  | .headers => ∃ bad line fields, s = joinLines (bad ++ line :: fields) ++ st.bytes ∧
      (∀ l ∈ bad ++ line :: fields, Unbroken l) ∧ (∀ l ∈ bad, isRequestLine l = false) ∧
      isRequestLine line = true ∧ [] ∉ fields ∧ Holds st.request fields
  | .body | .complete => ∀ t, Holds st.request (headerLines (s ++ t))
  | .error => False

variable {s line rest : Bytes} {p : HttpParser} {q : HttpRequest} {st : StreamState}

theorem read_requestLine (hq : q.parseState = .requestLine) {bytes : Bytes} :
    Read s ⟨p, bytes, q⟩ ↔ Holds q [] ∧ ∃ bad, s = joinLines bad ++ bytes ∧
      ∀ l ∈ bad, Unbroken l ∧ isRequestLine l = false := by
  simp only [Read, hq]

theorem read_headers (hq : q.parseState = .headers) {bytes : Bytes} :
    Read s ⟨p, bytes, q⟩ ↔ ∃ bad line fields, s = joinLines (bad ++ line :: fields) ++ bytes ∧
      (∀ l ∈ bad ++ line :: fields, Unbroken l) ∧ (∀ l ∈ bad, isRequestLine l = false) ∧
      isRequestLine line = true ∧ [] ∉ fields ∧ Holds q fields := by
  simp only [Read, hq]

theorem joinLines_append (ls : List Bytes) (line rest : Bytes) :
    joinLines ls ++ (line ++ (crlf ++ rest)) = joinLines (ls ++ [line]) ++ rest := by
  simp [joinLines]

/-- A line in front of the request: the request line, or one that is skipped. -/
theorem takeLine_requestLine_read (hq : q.parseState = .requestLine) (hun : Unbroken line)
    (h : Read s ⟨p, line ++ (crlf ++ rest), q⟩) :
    let next := (takeLine p q line).elim id Prod.snd
    Read s ⟨next.1, rest, next.2⟩ := by
  intro next
  obtain ⟨hholds, bad, htext, hbad⟩ := (read_requestLine hq).mp h
  rw [joinLines_append] at htext
  by_cases hok : ∃ m target v, RequestLine line m target v
  · have hline := isRequestLine_iff.mpr hok
    obtain ⟨m, target, v, hrequest⟩ := hok
    have hnext : next = (p, { setTarget { q with method := m } target with
        version := v, parseState := .headers }) := by
      simp only [next, takeLine_request hq hrequest]
      rfl
    rw [hnext, read_headers rfl]
    refine ⟨bad, line, [], htext, ?_, fun l hl => (hbad l hl).2, hline, by simp, ?_⟩
    · intro l hl
      rcases List.mem_append.mp hl with hl | hl
      · exact (hbad l hl).1
      · rwa [List.mem_singleton.mp hl]
    · simp only [Holds, (setTarget_headers _ _).1]
      exact hholds
  · have hnext : next = ({ p with hasError := true }, (parseRequestLine line q).2) := by
      simp only [next, takeLine_request_bad hq hok]
      rfl
    rw [hnext, read_requestLine ((parseRequestLine_keeps line q).1.trans hq)]
    refine ⟨?_, bad ++ [line], htext, ?_⟩
    · rw [Holds, (parseRequestLine_keeps line q).2]
      exact hholds
    · intro l hl
      rcases List.mem_append.mp hl with hl | hl
      · exact hbad l hl
      · rw [List.mem_singleton.mp hl]
        exact ⟨hun, Bool.eq_false_iff.mpr fun htrue => hok (isRequestLine_iff.mp htrue)⟩

/-- A line that `parse_header_line` refuses is no Connection line. -/
theorem connectionValues_bad (fields : List Bytes) (hbad : ¬ HeaderLine line) :
    connectionValues (fields ++ [line]) = connectionValues fields := by
  have hnone : valuesOf (ascii "connection") [line] = [] := by
    have hname : lower [] ≠ ascii "connection" := by decide
    cases hi : line.idxOf? colon with
    | none => simp [valuesOf, hi]
    | some i =>
      have hnil : headerField line i = [] := by
        by_contra hne
        exact hbad (headerLine_iff.mpr ⟨i, hi, hne⟩)
      simp [valuesOf, hi, hnil, hname]
  rw [connectionValues, valuesOf_append, hnone, List.append_nil]
  rfl

theorem takeLine_headers_read (hq : q.parseState = .headers) (hun : Unbroken line)
    (h : Read s ⟨p, line ++ (crlf ++ rest), q⟩) :
    let next := (takeLine p q line).elim id Prod.snd
    Read s ⟨next.1, rest, next.2⟩ := by
  intro next
  obtain ⟨bad, first, fields, htext, hls, hbad, hfirst, hfields, hholds⟩ := (read_headers hq).mp h
  by_cases hnil : line = []
  · subst hnil
    have hdone : ∀ t, Holds q (headerLines (s ++ t)) := by
      intro t
      rw [htext, List.nil_append, List.append_assoc, List.append_assoc,
        headerLines_eq hls hbad hfirst hfields]
      exact hholds
    rcases Nat.eq_zero_or_pos q.getContentLength with hzero | hpos
    · simp only [next, takeLine_blank_empty hq hzero]
      exact hdone
    · simp only [next, takeLine_blank_body hq hpos]
      exact hdone
  · have hstate : next.2.parseState = .headers ∧ Holds next.2 (fields ++ [line]) := by
      by_cases hok : HeaderLine line
      · simp only [next, takeLine_header hq hnil hok]
        exact ⟨hq, lookup_addLine hholds line⟩
      · simp only [next, takeLine_header_bad hq hnil hok]
        refine ⟨hq, ?_⟩
        rw [Holds, connectionValues_bad fields hok]
        exact hholds
    rw [joinLines_append, List.append_assoc, List.cons_append] at htext
    rw [read_headers hstate.1]
    refine ⟨bad, first, fields ++ [line], htext, ?_, hbad, hfirst, ?_, hstate.2⟩
    · intro l hl
      rw [← List.cons_append, ← List.append_assoc, List.mem_append, List.mem_singleton] at hl
      rcases hl with hl | rfl
      · exact hls l hl
      · exact hun
    · simp [hfields, Ne.symm hnil]

theorem iteration_read (h : Read s st) : Read s (st.iteration.elim id Prod.snd) := by
  rcases iteration_round st with ⟨line, rest, hl, hun, hbytes, hround⟩ | ⟨-, hround⟩ |
      ⟨hbody, body, rest, -, hround⟩ | ⟨-, hround⟩ | ⟨herror, -⟩
  · have hst : Read s ⟨st.parser, line ++ (crlf ++ rest), st.request⟩ := by
      rw [← hbytes]
      exact h
    rw [hround, resume_elim]
    rcases hl with hq | hq
    · exact takeLine_requestLine_read hq hun hst
    · exact takeLine_headers_read hq hun hst
  · rw [hround]
    exact h
  · rw [hround]
    simp only [Read, hbody] at h
    exact h
  · rw [hround]
    exact h
  · simp [Read, herror] at h

theorem Read.extend (h : Read s st) (t : Bytes) : Read (s ++ t) (st.extend t) := by
  cases hstate : st.request.parseState with
  | requestLine =>
    obtain ⟨hholds, bad, htext, hbad⟩ := (read_requestLine hstate).mp h
    exact (read_requestLine hstate).mpr ⟨hholds, bad, by rw [htext, List.append_assoc], hbad⟩
  | headers =>
    obtain ⟨bad, line, fields, htext, hrest⟩ := (read_headers hstate).mp h
    exact (read_headers hstate).mpr ⟨bad, line, fields, by rw [htext, List.append_assoc], hrest⟩
  | body =>
    simp only [Read, hstate, StreamState.request_extend, List.append_assoc] at h ⊢
    exact fun u => h (t ++ u)
  | complete =>
    simp only [Read, hstate, StreamState.request_extend, List.append_assoc] at h ⊢
    exact fun u => h (t ++ u)
  | error => simp [Read, hstate] at h

theorem calls_read {c : ParseContext} (h : Read s (view c)) (chunks : List Bytes) :
    Read (s ++ chunks.flatten) (view (calls c chunks)) := by
  induction chunks generalizing c s with
  | nil =>
    rw [List.flatten_nil, List.append_nil]
    exact h
  | cons x xs ih =>
    have hcall : Read (s ++ x) (view (parseRequest (arrive c x)).2) := by
      rw [(parseRequest_arrive c x).2]
      exact parseStream_keeps (fun _ => iteration_read) (h.extend x)
    rw [List.flatten_cons, ← List.append_assoc]
    exact ih hcall

/-- For every request that calls of the parser have completed, however its bytes arrived and
whatever lines were refused on the way: the wish of the client is honoured exactly when, for
HTTP/1.1, no Connection line lists `close` or the only one has just `close` as its value. -/
theorem close_honoured_iff (c : ParseContext) (chunks : List Bytes) (hempty : c.request = {})
    (hdone : (calls c chunks).request.parseState = .complete) :
    let q := (calls c chunks).request
    let fields := headerLines (c.buffer.readable ++ chunks.flatten)
    Honoured q fields ↔ (q.version = .http11 → Lists (ascii "close") fields →
      ∃ v, connectionValues fields = [v] ∧ lower v = ascii "close") := by
  intro q fields
  have hstart : Read c.buffer.readable (view c) := by
    rw [view, hempty, read_requestLine rfl]
    exact ⟨rfl, [], rfl, by simp⟩
  have hread := calls_read hstart chunks
  rw [Read, show (view (calls c chunks)).request.parseState = .complete from hdone] at hread
  have hholds : Holds q fields := by
    have hall := hread []
    rwa [List.append_nil] at hall
  exact honoured_iff hholds

/-- A bad line, and then a request with the single option `Close`, in three parts. -/
theorem close_honoured_single :
    let c := calls (fresh 64) [ascii "BAD\r\nGET / HTTP/1.1\r\n", ascii "Connection: Clo", ascii "se\r\n\r\n"]
    c.request.parseState = .complete ∧ c.request.keepAlive = false ∧
      Honoured c.request [ascii "Connection: Close"] := by
  intro c
  have hdone : c.request.parseState = .complete := by decide +kernel
  have hfields : headerLines ((fresh 64).buffer.readable ++ [ascii "BAD\r\nGET / HTTP/1.1\r\n",
      ascii "Connection: Clo", ascii "se\r\n\r\n"].flatten) = [ascii "Connection: Close"] := by
    decide
  have hiff := close_honoured_iff (fresh 64) _ rfl hdone
  rw [hfields] at hiff
  refine ⟨hdone, by decide, hiff.mpr fun _ _ => ⟨ascii "Close", ?_, ?_⟩⟩
  · decide
  · decide

/-- `Connection: keep-alive, close`: the connection is kept. -/
theorem close_ignored_in_list :
    let c := calls (fresh 64) [ascii "GET / HTTP/1.1\r\nConnection: keep-alive, close\r\n\r\n"]
    c.request.parseState = .complete ∧ c.request.keepAlive = true ∧
      ¬ Honoured c.request
        (headerLines (ascii "GET / HTTP/1.1\r\nConnection: keep-alive, close\r\n\r\n")) := by
  intro c
  have hfields : headerLines (ascii "GET / HTTP/1.1\r\nConnection: keep-alive, close\r\n\r\n") =
      [ascii "Connection: keep-alive, close"] := by decide
  have hkept : c.request.keepAlive = true := by decide
  have hversion : c.request.version = .http11 := by decide
  refine ⟨by decide, hkept, fun h => ?_⟩
  rw [hfields] at h
  have hvalues : connectionValues [ascii "Connection: keep-alive, close"] =
      [ascii "keep-alive, close"] := by decide
  have hoption : ascii "close" ∈ options (ascii "keep-alive, close") := by decide
  have hclosed := h.1 hversion ⟨ascii "keep-alive, close", by simp [hvalues], hoption⟩
  rw [hkept] at hclosed
  cases hclosed

end TzzeroHttp.RequestKeepAlive
