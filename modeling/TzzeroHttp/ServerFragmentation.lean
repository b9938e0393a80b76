import TzzeroHttp.ServerPipelining

/-! One request cut into several reads. Every message event starts with an empty request,
so the lines that an earlier event consumed are lost: from then on the server reads a tail
of the request as if it were one of its own. -/
namespace TzzeroHttp.ServerFragmentation
open ByteText HeaderMap BufferQueue RequestModel ResponseModel ParserModel ParserStream ParserLines
open ParserIncremental ParserGrammar ListSearch ServerModel ServerPipelining

/-- What a request with these header lines and this body can still hold once its first line
is gone. -/
def Tail (fields : List Bytes) (body x : Bytes) : Prop :=
  (∃ gs, gs <:+ fields ∧ x = joinLines gs ++ (crlf ++ body)) ∨ x <:+ body

theorem Tail.mono {fields fields' : List Bytes} {body x : Bytes} (h : Tail fields body x)
    (hs : fields <:+ fields') : Tail fields' body x := by
  rcases h with ⟨gs, hgs, rfl⟩ | h
  · exact .inl ⟨gs, hgs.trans hs, rfl⟩
  · exact .inr h

variable {p : HttpParser} {q : HttpRequest}

theorem parseStream_suffix (z : StreamState) : (parseStream z).2.bytes <:+ z.bytes := by
  obtain ⟨⟨n, hn⟩, -⟩ := parseStream_extend z
  rw [hn]
  exact List.drop_suffix n z.bytes

theorem suffix_append_right {a b : Bytes} (h : a <:+ b) (f : Bytes) : a ++ f <:+ b ++ f := by
  obtain ⟨c, rfl⟩ := h
  exact ⟨c, by simp⟩

theorem body_prefix (t : Bytes) (hq : q.parseState = .body) :
    (parseStream ⟨p, t, q⟩).2.request.headers = q.headers ∧
      (parseStream ⟨p, t, q⟩).2.parser.hasError = p.hasError := by
  by_cases hle : p.contentLength ≤ t.length
  · rw [parseStream_body_split hq hle]
    exact ⟨rfl, rfl⟩
  · rw [parseStream_starved (s := ⟨p, t, q⟩) (.inr ⟨hq, by simpa using hle⟩)]
    exact ⟨rfl, rfl⟩

/-- The header phase on the part `t` of the stream that has arrived, when the whole of it is
good lines, a blank line and `body`. -/
theorem headers_prefix {fs : List Bytes} {t f body : Bytes} (hf : ∀ g ∈ fs, FieldLine g)
    (hq : q.parseState = .headers) (heq : t ++ f = joinLines fs ++ (crlf ++ body)) :
    let z := parseStream ⟨p, t, q⟩
    z.2.parser.hasError = p.hasError ∧ Tail fs body (z.2.bytes ++ f) ∧
      (z.1 = true → z.2.request.headers = fs.foldl addLine q.headers) := by
  induction fs generalizing t q with
  | nil =>
    by_cases hcut : crlf <:+: t
    · obtain ⟨line, rest, rfl, hun⟩ := exists_cut hcut
      obtain ⟨rfl, hrest⟩ : line = [] ∧ rest ++ f = body :=
        cut_unique cr_ne_lf hun unbroken_nil (by simpa [crlf] using heq)
      rw [parseStream_cut (Or.inr hq) hun]
      by_cases hz : q.getContentLength = 0
      · rw [takeLine_blank_empty hq hz]
        exact ⟨rfl, .inr (by simp [hrest]), fun _ => rfl⟩
      · rw [takeLine_blank_body hq (Nat.pos_of_ne_zero hz)]
        obtain ⟨hhead, herr⟩ := body_prefix (p := ⟨p.hasError, q.getContentLength, true⟩)
          (q := q.setParseState .body) rest rfl
        refine ⟨herr, .inr ?_, fun _ => hhead⟩
        rw [← hrest]
        exact suffix_append_right (parseStream_suffix _) f
    · rw [parseStream_starved (s := ⟨p, t, q⟩) (.inl ⟨.inr hq, hcut⟩)]
      exact ⟨rfl, .inl ⟨[], List.suffix_refl _, heq⟩, by simp⟩
  | cons g gs ih =>
    by_cases hcut : crlf <:+: t
    · obtain ⟨line, rest, rfl, hun⟩ := exists_cut hcut
      obtain ⟨hgne, hgun, hgok⟩ := hf g (by simp)
      obtain ⟨rfl, hrest⟩ : line = g ∧ rest ++ f = joinLines gs ++ (crlf ++ body) :=
        cut_unique cr_ne_lf hun hgun (by simpa [crlf] using heq)
      rw [parseStream_cut (Or.inr hq) hun, takeLine_header hq hgne hgok]
      obtain ⟨herr, htail, hhead⟩ := ih (q := { q with headers := addLine q.headers line })
        (fun g hg => hf g (by simp [hg])) hq hrest
      exact ⟨herr, htail.mono (List.suffix_cons _ _), hhead⟩
    · rw [parseStream_starved (s := ⟨p, t, q⟩) (.inl ⟨.inr hq, hcut⟩)]
      exact ⟨rfl, .inl ⟨g :: gs, List.suffix_refl _, heq⟩, by simp⟩

theorem fieldSize_addLine (h : Headers) (line n : Bytes) :
    (addLine h line).fieldSize n = h.fieldSize n + (addLine ∅ line).fieldSize n := by
  unfold addLine
  cases line.idxOf? colon with
  | none => simp
  | some i => simp [Headers.fieldSize_add]

theorem fieldSize_foldl (fs : List Bytes) (h : Headers) (n : Bytes) :
    (fs.foldl addLine h).fieldSize n = h.fieldSize n + (headerTable fs).fieldSize n := by
  induction fs generalizing h with
  | nil => simp [headerTable]
  | cons g gs ih =>
    rw [headerTable, List.foldl_cons, List.foldl_cons, ih, ih (addLine ∅ g), fieldSize_addLine]
    omega

/-- A table built without one of the lines lacks what that line would have added. -/
theorem fieldSize_lost {fields gs : List Bytes} {g : Bytes} (hg : HeaderLine g)
    (hs : g :: gs <:+ fields) :
    ∃ n, (headerTable gs).fieldSize n < (headerTable fields).fieldSize n := by
  obtain ⟨pre, rfl⟩ := hs
  obtain ⟨i, hi, -⟩ := headerLine_iff.mp hg
  refine ⟨lower (headerField g i), ?_⟩
  have hadd : 0 < (addLine ∅ g).fieldSize (lower (headerField g i)) := by
    simp [addLine, hi, Headers.fieldSize_add]
  rw [headerTable, headerTable, List.foldl_append, List.foldl_cons, fieldSize_foldl gs (addLine _ g),
    fieldSize_addLine, ← headerTable, ← headerTable]
  omega

/-- Less than the whole request: a shorter body, or some header field with less in it. -/
def Poorer (fields : List Bytes) (body : Bytes) (q : HttpRequest) : Prop :=
  q.body.length < body.length ∨
    ∃ n, q.headers.fieldSize n < (headerTable fields).fieldSize n

theorem not_requestLine_nil : ¬ ∃ m target v, RequestLine [] m target v := by
  rintro ⟨m, target, v, name, version, rest, hw, -⟩
  simp [words_nil] at hw

/-- One call that reads a tail with an empty request: it fails, or what it leaves is a tail
again, and a request it completes is a poorer one. -/
theorem tail_prefix {fields : List Bytes} {body t f : Bytes} (hf : ∀ g ∈ fields, FieldLine g)
    (hp : p.hasError = false) (hx : Tail fields body (t ++ f)) :
    let z := parseStream ⟨p, t, {}⟩
    (z.1 = false ∧ z.2.parser.hasError = true) ∨
      (z.2.parser.hasError = false ∧ Tail fields body (z.2.bytes ++ f) ∧
        (z.1 = true → Poorer fields body z.2.request)) := by
  intro z
  rcases hx with ⟨gs, hgs, heq⟩ | hx
  · by_cases hcut : crlf <:+: t
    · obtain ⟨line, rest, rfl, hun⟩ := exists_cut hcut
      simp only [z, parseStream_cut (q := {}) (Or.inl rfl) hun]
      by_cases hok : ∃ m target v, RequestLine line m target v
      · obtain ⟨m, target, v, hline⟩ := hok
        cases gs with
        | nil =>
          obtain ⟨rfl, -⟩ : line = [] ∧ rest ++ f = body :=
            cut_unique cr_ne_lf hun unbroken_nil (by simpa [crlf] using heq)
          exact absurd ⟨m, target, v, hline⟩ not_requestLine_nil
        | cons g gs =>
          obtain ⟨-, hgun, hgok⟩ := hf g (hgs.subset (by simp))
          obtain ⟨rfl, hrest⟩ : line = g ∧ rest ++ f = joinLines gs ++ (crlf ++ body) :=
            cut_unique cr_ne_lf hun hgun (by simpa [crlf] using heq)
          have hgs' : gs <:+ fields := (List.suffix_cons _ _).trans hgs
          rw [takeLine_request rfl hline]
          obtain ⟨herr, htail, hhead⟩ := headers_prefix (p := p)
            (q := { setTarget { method := m } target with version := v, parseState := .headers })
            (fun g hg => hf g (hgs'.subset hg)) rfl hrest
          refine .inr ⟨herr.trans hp, htail.mono hgs', fun hdone => .inr ?_⟩
          obtain ⟨n, hn⟩ := fieldSize_lost hgok hgs
          refine ⟨n, ?_⟩
          rw [hhead hdone]
          simp only [(setTarget_headers { method := m } target).1]
          exact hn
      · rw [takeLine_request_bad rfl hok]
        exact .inl ⟨rfl, rfl⟩
    · have hst : z = (false, ⟨p, t, {}⟩) := parseStream_starved (.inl ⟨.inl rfl, hcut⟩)
      rw [hst]
      exact .inr ⟨hp, .inl ⟨gs, hgs, heq⟩, by simp⟩
  · have htail : Tail fields body (z.2.bytes ++ f) :=
      .inr ((suffix_append_right (parseStream_suffix _) f).trans hx)
    by_cases hdone : z.1 = true
    · obtain ⟨line, fs, b, rest, hm⟩ := message_of_complete hdone
      obtain ⟨m, target, v, hline⟩ := hm.requestLine
      obtain ⟨p', hp', hrun⟩ := message_complete hm hline p
      have hz : z = (true, ⟨p', rest, messageRequest m target v fs b⟩) := hrun
      refine .inr ⟨by rw [hz]; exact hp'.trans hp, htail, fun _ => .inl ?_⟩
      have hlen := hx.length_le
      have htext := congrArg List.length hm.text
      simp only [List.length_append, crlf, List.length_cons] at hlen htext
      rw [hz]
      simp only [messageRequest]
      omega
    · obtain ⟨-, ⟨-, -, herr, -⟩ | ⟨hdec, -⟩⟩ := parseStream_extend ⟨p, t, {}⟩
      · exact .inr ⟨herr.trans hp, htail, fun h => absurd h hdone⟩
      · exact .inl ⟨by simpa using hdone, hdec.resolve_left hdone⟩

/-- The call in which the first line ends, when the request is not yet there as a whole:
nothing is reported, and the lines it read are gone. -/
theorem first_break {t f line body : Bytes} {fields : List Bytes} (hp : p.hasError = false)
    (hm : Message (t ++ f) line fields body []) (hf : f ≠ []) (hcut : crlf <:+: t) :
    let z := parseStream ⟨p, t, {}⟩
    z.1 = false ∧ z.2.parser.hasError = false ∧ Tail fields body (z.2.bytes ++ f) := by
  intro z
  obtain ⟨m, target, v, hline⟩ := hm.requestLine
  obtain ⟨p', -, hrun⟩ := message_complete hm hline p
  have hfalse : z.1 = false ∧ z.2.parser.hasError = p.hasError := by
    obtain ⟨-, ⟨hfalse, -, herr, -⟩ | ⟨-, hext⟩⟩ := parseStream_extend ⟨p, t, {}⟩
    · exact ⟨hfalse, herr⟩
    · have hwhole : parseStream ⟨p, t ++ f, {}⟩ = (z.1, z.2.extend f) := hext f
      rw [hrun] at hwhole
      have hbytes : [] = z.2.bytes ++ f := congrArg (fun x => x.2.bytes) hwhole
      exact absurd (List.append_eq_nil_iff.mp hbytes.symm).2 hf
  refine ⟨hfalse.1, hfalse.2.trans hp, ?_⟩
  obtain ⟨line', rest, rfl, hun⟩ := exists_cut hcut
  obtain ⟨rfl, hrest⟩ : line' = line ∧ rest ++ f = joinLines fields ++ (crlf ++ body) :=
    cut_unique cr_ne_lf hun hm.unbroken (by simpa [crlf] using hm.text)
  simp only [z, parseStream_cut (q := {}) (Or.inl rfl) hun]
  rw [takeLine_request rfl hline]
  obtain ⟨-, htail, -⟩ := headers_prefix (p := p)
    (q := { setTarget { method := m } target with version := v, parseState := .headers })
    hm.fields_ok rfl hrest
  exact htail

variable {server : HttpServer} {cb : HttpCallback}

theorem deliver_append (s : Session) (a b : List Bytes) :
    server.deliver s (a ++ b) =
      ((server.deliver (server.deliver s a).1 b).1,
        (server.deliver s a).2 ++ (server.deliver (server.deliver s a).1 b).2) := by
  induction a generalizing s with
  | nil => rfl
  | cons x a ih => simp [HttpServer.deliver, ih]

/-- Nothing to read and no error so far: a connection between two requests. -/
def Idle (s : Session) : Prop :=
  s.inputBuffer.readable = [] ∧ (s.context.getD {}).hasError = false

/-- Reads without a line end only fill the buffer. -/
theorem deliver_quiet (server : HttpServer) {s : Session} (chunks : List Bytes)
    (hp : (s.context.getD {}).hasError = false)
    (hun : ¬ crlf <:+: s.inputBuffer.readable ++ chunks.flatten) :
    let out := server.deliver s chunks
    out.2 = [] ∧ out.1.inputBuffer.readable = s.inputBuffer.readable ++ chunks.flatten ∧
      (out.1.context.getD {}).hasError = false := by
  induction chunks generalizing s with
  | nil => exact ⟨rfl, by simp [HttpServer.deliver], hp⟩
  | cons c cs ih =>
    rw [List.flatten_cons, ← List.append_assoc] at hun ⊢
    have hst : (StreamState.mk (s.context.getD {}) (s.inputBuffer.readable ++ c) {}).Starved :=
      .inl ⟨.inl rfl, fun h => hun (h.trans (List.prefix_append _ _).isInfix)⟩
    obtain ⟨hbytes, hctx, heff⟩ := receive_eq server s c
    rw [parseStream_starved hst] at hbytes hctx heff
    simp only [Bool.false_eq_true, if_false] at hctx
    simp only [Bool.false_eq_true, if_false, hp] at heff
    obtain ⟨hnone, hfill, herr⟩ := ih (s := (server.receive s c).1) (by rw [hctx]; exact hp)
      (by rw [hbytes]; exact hun)
    rw [hbytes] at hfill
    exact ⟨by simp [HttpServer.deliver, heff, hnone], hfill, herr⟩

/-- An outcome that no longer tells the request: an error, or only poorer requests. -/
def Spoiled (fields : List Bytes) (body : Bytes) (effects : List Effect) : Prop :=
  .parseError ∈ effects ∨ ∀ q ∈ callbacks effects, Poorer fields body q

theorem deliver_spoiled (server : HttpServer) (cb : HttpCallback) {s : Session}
    {fields : List Bytes} {body : Bytes} (chunks : List Bytes)
    (hf : ∀ g ∈ fields, FieldLine g) (hp : (s.context.getD {}).hasError = false)
    (hx : Tail fields body (s.inputBuffer.readable ++ chunks.flatten)) :
    Spoiled fields body ((server.setHttpCallback cb).deliver s chunks).2 := by
  induction chunks generalizing s with
  | nil => exact .inr (by simp [HttpServer.deliver])
  | cons c cs ih =>
    rw [List.flatten_cons, ← List.append_assoc] at hx
    obtain ⟨hbytes, hctx, heff⟩ := receive_eq (server.setHttpCallback cb) s c
    set z := parseStream ⟨s.context.getD {}, s.inputBuffer.readable ++ c, {}⟩ with hz
    rcases tail_prefix hf hp hx with ⟨hfalse, herr⟩ | ⟨herr, htail, hpoor⟩
    · left
      rw [← hz] at hfalse herr
      simp only [hfalse, herr, Bool.false_eq_true, if_false, if_true] at heff
      simp [HttpServer.deliver, heff]
    · rw [← hz] at herr htail hpoor
      have hnext : (((server.setHttpCallback cb).receive s c).1.context.getD {}).hasError = false := by
        rw [hctx]
        split_ifs
        · rfl
        · exact herr
      rcases ih hnext (by rw [hbytes]; exact htail) with hbad | hrest
      · exact .inl (by simp [HttpServer.deliver, hbad])
      · right
        intro q hq
        simp only [HttpServer.deliver, callbacks_append, List.mem_append, heff] at hq
        rcases hq with hq | hq
        · split_ifs at hq with hdone
          · rw [callbacks_onRequest, List.mem_singleton] at hq
            exact hq ▸ hpoor hdone
          · simp [herr] at *
          · simp at hq
        · exact hrest q hq

structure SameContent (a b : HttpRequest) : Prop where
  method : a.method = b.method
  path : a.path = b.path
  query : a.query = b.query
  version : a.version = b.version
  headers : ∀ n, a.headers.lookup n = b.headers.lookup n
  body : a.body = b.body

theorem SameContent.not_poorer {q q' : HttpRequest} (h : SameContent q' q) {fields : List Bytes}
    {body : Bytes} (hh : q.headers = headerTable fields) (hb : q.body = body) :
    ¬ Poorer fields body q' := by
  rintro (hlt | ⟨n, hlt⟩)
  · rw [h.body, hb] at hlt
    exact absurd hlt (lt_irrefl _)
  · rw [Headers.fieldSize, h.headers n, ← Headers.fieldSize, hh] at hlt
    exact absurd hlt (lt_irrefl _)

/-- Cutting `r` into these chunks makes no difference: one callback, with the content that a
single read of `r` gives, and no parse error. -/
def Unaffected (server : HttpServer) (s : Session) (r : Bytes) (chunks : List Bytes) : Prop :=
  ∃ q q', callbacks (server.deliver s [r]).2 = [q] ∧ callbacks (server.deliver s chunks).2 = [q'] ∧
    SameContent q' q ∧ .parseError ∉ (server.deliver s chunks).2

theorem exists_first_break {chunks : List Bytes} (h : crlf <:+: chunks.flatten) :
    ∃ pre c post, chunks = pre ++ c :: post ∧ ¬ crlf <:+: pre.flatten ∧
      crlf <:+: pre.flatten ++ c := by
  induction chunks using List.reverseRecOn with
  | nil => simp [crlf] at h
  | append_singleton chunks c ih =>
    by_cases hearlier : crlf <:+: chunks.flatten
    · obtain ⟨pre, c', post, rfl, hpre, hc⟩ := ih hearlier
      exact ⟨pre, c', post ++ [c], by simp, hpre, hc⟩
    · exact ⟨chunks, c, [], rfl, hearlier, by simpa using h⟩

/-- A first line that ends before the last read spoils the delivery. -/
theorem deliver_broken (server : HttpServer) (cb : HttpCallback) {s : Session} (hs : Idle s)
    {line body c : Bytes} {fields pre post : List Bytes}
    (hm : Message (pre ++ c :: post).flatten line fields body []) (hpost : post.flatten ≠ [])
    (hpre : ¬ crlf <:+: pre.flatten) (hc : crlf <:+: pre.flatten ++ c) :
    Spoiled fields body ((server.setHttpCallback cb).deliver s (pre ++ c :: post)).2 := by
  obtain ⟨hempty, hp⟩ := hs
  obtain ⟨hnone, hfill, herr⟩ := deliver_quiet (server.setHttpCallback cb) pre hp
    (by simpa [hempty] using hpre)
  rw [hempty, List.nil_append] at hfill
  rw [deliver_append, hnone, List.nil_append]
  set s₁ := ((server.setHttpCallback cb).deliver s pre).1
  have hm' : Message (pre.flatten ++ c ++ post.flatten) line fields body [] := by simpa using hm
  obtain ⟨hfalse, hgood, htail⟩ := first_break herr hm' hpost hc
  obtain ⟨hbytes, hctx, heff⟩ := receive_eq (server.setHttpCallback cb) s₁ c
  rw [hfill] at hbytes hctx heff
  simp only [hfalse, hgood, Bool.false_eq_true, if_false] at hctx heff
  have hrest := deliver_spoiled server cb post hm.fields_ok
    (s := ((server.setHttpCallback cb).receive s₁ c).1) (by rw [hctx]; exact hgood)
    (by rw [hbytes]; exact htail)
  simpa [HttpServer.deliver, heff] using hrest

/-- A request that arrives in several reads is served as in one read exactly when no CR LF
lies in the bytes before the last read. -/
theorem fragmented_unaffected_iff (server : HttpServer) (cb : HttpCallback) (initial : ℕ)
    (s : Session) (hs : Idle s) (r : Bytes) (hr : Whole initial r) (chunks : List Bytes)
    (hne : ∀ c ∈ chunks, c ≠ []) (hflat : chunks.flatten = r) :
    Unaffected (server.setHttpCallback cb) s r chunks ↔ ¬ crlf <:+: chunks.dropLast.flatten := by
  obtain ⟨hempty, hp⟩ := hs
  have hdata : s.inputBuffer.readable ++ r = r ++ [] := by simp [hempty]
  obtain ⟨-, hone⟩ := receive_whole (server.setHttpCallback cb) hr hdata
  have hsingle : callbacks ((server.setHttpCallback cb).deliver s [r]).2 =
      [(parseAlone initial r).2.request] := by
    simp [HttpServer.deliver, hone]
  obtain ⟨init, last, rfl⟩ : ∃ init last, chunks = init ++ [last] := by
    rcases List.eq_nil_or_concat chunks with rfl | h
    · exact absurd hflat.symm (whole_ne_nil hr)
    · simpa using h
  rw [List.dropLast_concat]
  constructor
  · rintro ⟨q, q', hq, hq', hsame, hnoerr⟩ hcut
    obtain rfl : (parseAlone initial r).2.request = q := List.singleton_injective (hsingle.symm.trans hq)
    obtain ⟨pre, c, post, rfl, hpre, hc⟩ := exists_first_break hcut
    obtain ⟨line, fields, body, m, target, v, hm, -, hreq⟩ := whole_message hr
    have hlast : (post ++ [last]).flatten ≠ [] := by
      simp [hne last (by simp)]
    have hspoiled := deliver_broken server cb ⟨hempty, hp⟩ (by simpa [← hflat] using hm) hlast hpre hc
    rw [← List.cons_append, ← List.append_assoc] at hspoiled
    rcases hspoiled with herr | hpoor
    · exact hnoerr herr
    · have hheaders : (parseAlone initial r).2.request.headers = headerTable fields := by
        rw [hreq]
        rfl
      have hbody : (parseAlone initial r).2.request.body = body := by
        rw [hreq]
        rfl
      exact hsame.not_poorer hheaders hbody (hpoor q' (by rw [hq']; simp))
  · intro hun
    obtain ⟨hnone, hfill, -⟩ := deliver_quiet (server.setHttpCallback cb) init hp
      (by simpa [hempty] using hun)
    have hdata' : ((server.setHttpCallback cb).deliver s init).1.inputBuffer.readable ++ last =
        r ++ [] := by
      simpa [hfill, hempty] using hflat
    obtain ⟨-, hlast⟩ := receive_whole (server.setHttpCallback cb) hr hdata'
    refine ⟨_, _, hsingle, ?_, ⟨rfl, rfl, rfl, rfl, fun _ => rfl, rfl⟩, ?_⟩
    · simp [deliver_append, hnone, HttpServer.deliver, hlast]
    · simp [deliver_append, hnone, HttpServer.deliver, hlast, parseError_not_mem_onRequest]

def getLine : Bytes := ascii "GET / HTTP/1.1\r\n"

theorem established_idle (initial : ℕ) : Idle (established initial) :=
  ⟨by simp [established, HttpServer.onConnection], rfl⟩

theorem fragmented_unaffected_inside_line :
    Unaffected (HttpServer.setHttpCallback {} fun _ r => r) (established 1024) getRoot
      [ascii "GET / HT", ascii "TP/1.1\r\n\r\n"] :=
  (fragmented_unaffected_iff {} _ 1024 _ (established_idle 1024) getRoot getRoot_whole.1 _
    (by decide) (by decide)).mpr (by decide)

/-- The request line in one read and the blank line in the next: the second event takes the
blank line for a request line and fails. -/
theorem fragmented_after_line :
    ¬ ∀ (server : HttpServer) (cb : HttpCallback) (initial : ℕ) (s : Session), Idle s →
      ∀ r, Whole initial r → ∀ chunks : List Bytes, (∀ c ∈ chunks, c ≠ []) → chunks.flatten = r →
        Unaffected (server.setHttpCallback cb) s r chunks := by
  intro h
  obtain ⟨-, q', -, hq', -⟩ := h {} (fun _ r => r) 1024 _ (established_idle 1024) getRoot
    getRoot_whole.1 [getLine, crlf] (by decide) (by decide)
  have hcount : (callbacks ((HttpServer.setHttpCallback {} fun _ r => r).deliver
      (established 1024) [getLine, crlf]).2).length = 0 := by decide +kernel
  rw [hq'] at hcount
  simp at hcount

end TzzeroHttp.ServerFragmentation
