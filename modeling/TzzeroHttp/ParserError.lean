import TzzeroHttp.ParserGrammar

/-! What a parse error leaves behind. The flag stays, but the bad line is consumed and the
request keeps its state, so a later call goes on with the next line, and some continuation of
the stream completes the request. Only `PARSE_ERROR` is final, and the parser never sets it. -/
namespace TzzeroHttp.ParserError
open ByteText ListSearch BufferQueue RequestModel ParserModel ParserStream ParserLines
open ParserIncremental ParserGrammar

/-- The call returns false with the error flag. -/
def ReportsError (c : ParseContext) : Prop :=
  (parseRequest c).1 = false ∧ (parseRequest c).2.parser.hasError = true

/-- Every further call returns false with the error flag, and never completes the request. -/
def Final (c : ParseContext) : Prop :=
  ∀ chunks x, let r := parseRequest (arrive (calls c chunks) x)
    r.1 = false ∧ r.2.parser.hasError = true ∧ r.2.request.parseState ≠ .complete

/-- The states in which a call looks at the buffer. -/
def Waiting (q : HttpRequest) : Prop := ReadsLines q ∨ q.parseState = .body

/-- Some continuation of the stream completes the request. -/
inductive Completes : StreamState → Prop
  | now {s : StreamState} (x : Bytes) : (parseStream (s.extend x)).1 = true → Completes s
  | later {s : StreamState} (x : Bytes) : Completes (parseStream (s.extend x)).2 → Completes s

variable {p : HttpParser} {q : HttpRequest}

/-- One line and what it leaves behind. -/
theorem completes_of_line (y rest : Bytes) {line bytes : Bytes} (hl : ReadsLines q) (hline : Unbroken line)
    (htext : bytes ++ y = line ++ (crlf ++ rest))
    (hnext : ∀ p' q', takeLine p q line = .inl (p', q') ∨ takeLine p q line = .inr (false, p', q') →
      Completes ⟨p', rest, q'⟩) : Completes ⟨p, bytes, q⟩ := by
  have hstate : ∀ x, (StreamState.mk p bytes q).extend (y ++ x) =
      ⟨p, line ++ (crlf ++ (rest ++ x)), q⟩ := by
    intro x
    have hbytes : bytes ++ (y ++ x) = line ++ (crlf ++ (rest ++ x)) := by
      rw [← List.append_assoc, htext]
      simp
    rw [StreamState.extend, hbytes]
  cases htake : takeLine p q line with
  | inl next =>
    obtain ⟨p', q'⟩ := next
    have hcall : ∀ x, parseStream ((StreamState.mk p bytes q).extend (y ++ x)) =
        parseStream ((StreamState.mk p' rest q').extend x) := by
      intro x
      rw [hstate, parseStream_cut hl hline, htake]
      rfl
    cases hnext p' q' (.inl htake) with
    | now x hx => exact .now (y ++ x) (by rw [hcall]; exact hx)
    | later x hx => exact .later (y ++ x) (by rw [hcall]; exact hx)
  | inr last =>
    obtain ⟨r, p', q'⟩ := last
    have hcall : parseStream ((StreamState.mk p bytes q).extend y) = (r, ⟨p', rest, q'⟩) := by
      have hwhole := hstate []
      rw [List.append_nil, List.append_nil] at hwhole
      rw [hwhole, parseStream_cut hl hline, htake]
    cases r with
    | true => exact .now y (by rw [hcall])
    | false => exact .later y (by rw [hcall]; exact hnext p' q' (.inr htake))

theorem takeLine_waiting {p' : HttpParser} {q' : HttpRequest} {line : Bytes} (hl : ReadsLines q)
    (h : takeLine p q line = .inl (p', q') ∨ takeLine p q line = .inr (false, p', q')) :
    Waiting q' := by
  rcases hl with hq | hq
  · by_cases hok : ∃ m target v, RequestLine line m target v
    · obtain ⟨m, target, v, hline⟩ := hok
      rw [takeLine_request hq hline] at h
      simp only [Sum.inl.injEq, Prod.mk.injEq, reduceCtorEq, or_false] at h
      rw [← h.2]
      exact .inl (.inr rfl)
    · rw [takeLine_request_bad hq hok] at h
      simp only [Sum.inr.injEq, Prod.mk.injEq, true_and, reduceCtorEq, false_or] at h
      rw [← h.2]
      exact .inl (.inl ((parseRequestLine_keeps line q).1.trans hq))
  · by_cases hnil : line = []
    · subst hnil
      rcases Nat.eq_zero_or_pos q.getContentLength with hzero | hpos
      · simp [takeLine_blank_empty hq hzero] at h
      · rw [takeLine_blank_body hq hpos] at h
        simp only [Sum.inl.injEq, Prod.mk.injEq, reduceCtorEq, or_false] at h
        rw [← h.2]
        exact .inr rfl
    · by_cases hok : HeaderLine line
      · rw [takeLine_header hq hnil hok] at h
        simp only [Sum.inl.injEq, Prod.mk.injEq, reduceCtorEq, or_false] at h
        rw [← h.2]
        exact .inl (.inr hq)
      · rw [takeLine_header_bad hq hnil hok] at h
        simp only [Sum.inr.injEq, Prod.mk.injEq, true_and, reduceCtorEq, false_or] at h
        rw [← h.2]
        exact .inl (.inr hq)

theorem completes_body (hq : q.parseState = .body) (bytes : Bytes) : Completes ⟨p, bytes, q⟩ := by
  refine .now (List.replicate p.contentLength 0) ?_
  have hle : p.contentLength ≤ (bytes ++ List.replicate p.contentLength 0).length := by simp
  exact congrArg Prod.fst (parseStream_body_split hq hle)

theorem completes_headers_nil (hq : q.parseState = .headers) : Completes ⟨p, [], q⟩ := by
  refine completes_of_line crlf [] (.inr hq) unbroken_nil (by simp) ?_
  intro p' q' htake
  rcases Nat.eq_zero_or_pos q.getContentLength with hzero | hpos
  · rw [takeLine_blank_empty hq hzero] at htake
    simp at htake
  · rw [takeLine_blank_body hq hpos] at htake
    rcases htake with htake | htake
    · obtain ⟨-, rfl⟩ := Prod.mk.inj (Sum.inl.inj htake)
      exact completes_body rfl []
    · cases htake

theorem completes_requestLine_nil (hq : q.parseState = .requestLine) : Completes ⟨p, [], q⟩ := by
  have hline : RequestLine (ascii "GET / HTTP/1.1") .get (ascii "/") .http11 :=
    ⟨ascii "GET", ascii "HTTP/1.1", [], by decide, by decide, by decide⟩
  have hun : Unbroken (ascii "GET / HTTP/1.1") := by
    unfold Unbroken
    decide
  refine completes_of_line (ascii "GET / HTTP/1.1" ++ crlf) [] (.inl hq) hun (by simp) ?_
  intro p' q' htake
  rw [takeLine_request hq hline] at htake
  rcases htake with htake | htake
  · obtain ⟨-, rfl⟩ := Prod.mk.inj (Sum.inl.inj htake)
    exact completes_headers_nil rfl
  · cases htake

/-- From every waiting state, by induction on the bytes in the buffer: each line of them is
consumed, good or bad, and a last one that is not closed gets its CR LF. -/
theorem completes_of_waiting (bytes : Bytes) (hq : Waiting q) : Completes ⟨p, bytes, q⟩ := by
  induction hn : bytes.length using Nat.strong_induction_on generalizing p q bytes with
  | _ n ih =>
    subst hn
    rcases hq with hl | hbody
    · by_cases hcut : crlf <:+: bytes
      · obtain ⟨line, rest, rfl, hun⟩ := exists_cut hcut
        refine completes_of_line [] rest hl hun (List.append_nil _) fun p' q' htake => ?_
        exact ih rest.length (by simp [crlf]; omega) rest (takeLine_waiting hl htake) rfl
      · by_cases hnil : bytes = []
        · subst hnil
          exact hl.elim completes_requestLine_nil completes_headers_nil
        · refine completes_of_line crlf [] hl hcut (by simp) fun p' q' htake => ?_
          exact ih 0 (List.length_pos_of_ne_nil hnil) [] (takeLine_waiting hl htake) rfl
    · exact completes_body hbody bytes

/-- The continuation as calls on the code's objects. -/
theorem exists_call {s : StreamState} (h : Completes s) {c : ParseContext} (hc : view c = s) :
    ∃ chunks x, (parseRequest (arrive (calls c chunks) x)).1 = true := by
  induction h generalizing c with
  | now x hx =>
    refine ⟨[], x, ?_⟩
    rw [← hc] at hx
    exact (parseRequest_arrive c x).1.trans hx
  | later x _ ih =>
    obtain ⟨-, hview⟩ := parseRequest_arrive c x
    rw [hc] at hview
    obtain ⟨chunks, x', hx'⟩ := ih hview
    exact ⟨x :: chunks, x', hx'⟩

theorem waiting_ne_error (hq : Waiting q) : q.parseState ≠ .error := by
  rcases hq with (hline | hheaders) | hbody
  · simp [hline]
  · simp [hheaders]
  · simp [hbody]

/-- A round that goes on, or returns false, leaves the request waiting, unless it was in
`PARSE_ERROR`. -/
theorem iteration_waiting {s s' : StreamState} (hs : s.request.parseState ≠ .error)
    (h : s.iteration = .inl s' ∨ s.iteration = .inr (false, s')) : Waiting s'.request := by
  rcases iteration_round s with ⟨line, rest, hl, -, -, hround⟩ | ⟨hstarved, hround⟩ |
      ⟨-, body, rest, -, hround⟩ | ⟨-, hround⟩ | ⟨herror, -⟩
  · rw [hround] at h
    cases htake : takeLine s.parser s.request line with
    | inl next =>
      simp only [htake, StreamState.resume, reduceCtorEq, Sum.inl.injEq, or_false] at h
      rw [← h]
      exact takeLine_waiting hl (.inl htake)
    | inr last =>
      simp only [htake, StreamState.resume, reduceCtorEq, Sum.inr.injEq, Prod.mk.injEq,
        false_or] at h
      rw [← h.2]
      exact takeLine_waiting hl (.inr (by rw [htake, ← h.1]))
  · simp only [hround, reduceCtorEq, Sum.inr.injEq, Prod.mk.injEq, true_and, false_or] at h
    rw [← h]
    exact hstarved.imp And.left And.left
  · simp [hround] at h
  · simp [hround] at h
  · exact absurd herror hs

/-- A call that returns false leaves the request waiting, by induction along its rounds. -/
theorem parseStream_waiting (s : StreamState) (hs : s.request.parseState ≠ .error)
    (hfalse : (parseStream s).1 = false) : Waiting (parseStream s).2.request := by
  refine streamLoop.run_induction (P := fun s x =>
    s.request.parseState ≠ .error → x.1 = false → Waiting x.2.request) ?_ ?_ s hs hfalse
  · intro s x hx hs hfalse
    exact iteration_waiting hs (.inr (hx.trans (by rw [← hfalse])))
  · intro s s' hnext ih hs
    exact ih (waiting_ne_error (iteration_waiting hs (.inl hnext)))

theorem parseRequest_waiting (c : ParseContext) (hs : c.request.parseState ≠ .error)
    (hfalse : (parseRequest c).1 = false) : Waiting (parseRequest c).2.request := by
  have hview := parseRequest_view c
  have hanswer : (parseStream (view c)).1 = false := by
    rw [← hview]
    exact hfalse
  have hwait := parseStream_waiting (view c) hs hanswer
  rw [← hview] at hwait
  exact hwait

theorem parseRequest_error {c : ParseContext} (hc : c.request.parseState = .error) :
    parseRequest c = c.fail c.buffer c.request := by
  apply parseLoop.run_leave
  change c.parseIteration = _
  simp only [ParseContext.parseIteration, hc]

theorem final_of_error {c : ParseContext} (hc : c.request.parseState = .error) : Final c := by
  have hcalls : ∀ chunks, (calls c chunks).request.parseState = .error := by
    intro chunks
    induction chunks generalizing c with
    | nil => exact hc
    | cons x xs ih =>
      apply ih
      change (parseRequest (arrive c x)).2.request.parseState = .error
      rw [parseRequest_error (c := arrive c x) hc]
      exact hc
  intro chunks x
  have hnow : (arrive (calls c chunks) x).request.parseState = .error := hcalls chunks
  rw [parseRequest_error hnow]
  refine ⟨rfl, rfl, ?_⟩
  change (arrive (calls c chunks) x).request.parseState ≠ .complete
  rw [hnow]
  decide

theorem takeLine_flag (hp : p.hasError = true) (line : Bytes) :
    ((takeLine p q line).elim id Prod.snd).1.hasError = true := by
  simp only [takeLine]
  split_ifs
  · exact hp
  · rfl
  · exact hp
  · exact hp
  · exact hp
  · rfl

theorem iteration_flag {s : StreamState} (hs : s.parser.hasError = true) :
    (s.iteration.elim id Prod.snd).parser.hasError = true := by
  rcases iteration_round s with ⟨line, rest, -, -, -, hround⟩ | ⟨-, hround⟩ |
      ⟨-, body, rest, -, hround⟩ | ⟨-, hround⟩ | ⟨-, hround⟩
  · rw [hround, resume_elim]
    exact takeLine_flag hs line
  · rw [hround]
    exact hs
  · rw [hround]
    exact hs
  · rw [hround]
    exact hs
  · rw [hround]
    rfl

theorem calls_flag {c : ParseContext} (hc : c.parser.hasError = true) (chunks : List Bytes) :
    (calls c chunks).parser.hasError = true := by
  induction chunks generalizing c with
  | nil => exact hc
  | cons x xs ih =>
    apply ih
    have hview := congrArg StreamState.parser (parseRequest_arrive c x).2
    change (view (parseRequest (arrive c x)).2).parser.hasError = true
    rw [hview]
    exact parseStream_keeps (P := fun s => s.parser.hasError = true) (fun _ => iteration_flag) hc

/-- An error that a call reported keeps its flag, and is final exactly when the request was in
`PARSE_ERROR` before the call, a state the parser never brings it into. -/
theorem error_final_iff (c : ParseContext) (h : ReportsError c) :
    (∀ chunks, (calls (parseRequest c).2 chunks).parser.hasError = true) ∧
      (Final (parseRequest c).2 ↔ c.request.parseState = .error) := by
  refine ⟨calls_flag h.2, ?_, ?_⟩
  · intro hfinal
    by_contra hs
    have hwait := parseRequest_waiting c hs h.1
    have hmore : Completes (view (parseRequest c).2) := completes_of_waiting _ hwait
    obtain ⟨chunks, x, hx⟩ := exists_call hmore rfl
    rw [(hfinal chunks x).1] at hx
    cases hx
  · intro hs
    apply final_of_error
    rw [parseRequest_error hs]
    exact hs

theorem error_final_iff_marked :
    ReportsError ⟨{}, ByteBuffer.new 8, { parseState := .error }⟩ ∧
      Final (parseRequest ⟨{}, ByteBuffer.new 8, { parseState := .error }⟩).2 := by
  have hreports : ReportsError ⟨{}, ByteBuffer.new 8, { parseState := .error }⟩ := ⟨rfl, rfl⟩
  exact ⟨hreports, (error_final_iff _ hreports).2.mpr rfl⟩

/-- A bad request line, then a good request on the same parser and request. -/
theorem error_not_final :
    ReportsError (arrive (fresh 8) (ascii "BAD\r\n")) ∧
      ¬ Final (parseRequest (arrive (fresh 8) (ascii "BAD\r\n"))).2 := by
  refine ⟨⟨by decide, by decide⟩, fun hfinal => ?_⟩
  have hnext := (hfinal [] (ascii "GET / HTTP/1.1\r\n\r\n")).1
  revert hnext
  decide

end TzzeroHttp.ParserError
