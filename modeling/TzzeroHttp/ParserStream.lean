import TzzeroHttp.ParserModel

/-! The parser as a machine on byte strings. `parseStream` is the loop with the buffer
replaced by the bytes it holds, and `parseRequest_view` says that the code computes it.
Everything about streams is proved there: a call that asks for more data can be resumed,
and a call that has decided is not changed by bytes that arrive later. -/
namespace TzzeroHttp.ParserStream
open ByteText BoundedLoop BufferQueue RequestModel ParserModel ListSearch

structure StreamState where
  parser : HttpParser
  bytes : Bytes
  request : HttpRequest

/-- The states in which the parser waits for a line. -/
def ReadsLines (q : HttpRequest) : Prop :=
  q.parseState = .requestLine ∨ q.parseState = .headers

instance (q : HttpRequest) : Decidable (ReadsLines q) := inferInstanceAs (Decidable (_ ∨ _))

def takeLine (p : HttpParser) (q : HttpRequest) (line : Bytes) :
    (HttpParser × HttpRequest) ⊕ (Bool × HttpParser × HttpRequest) :=
  if q.parseState = .requestLine then
    let r := parseRequestLine line q
    if r.1 then .inl (p, r.2.setParseState .headers)
    else .inr (false, { p with hasError := true }, r.2)
  else if line = [] then
    let p := { p with contentLength := q.getContentLength }
    if 0 < q.getContentLength then .inl ({ p with expectBody := true }, q.setParseState .body)
    else .inr (true, p, q.setParseState .complete)
  else
    let r := parseHeaderLine line q
    if r.1 then .inl (p, r.2) else .inr (false, { p with hasError := true }, r.2)

namespace StreamState

def resume (rest : Bytes) : (HttpParser × HttpRequest) ⊕ (Bool × HttpParser × HttpRequest) →
    StreamState ⊕ (Bool × StreamState)
  | .inl (p, q) => .inl ⟨p, rest, q⟩
  | .inr (r, p, q) => .inr (r, ⟨p, rest, q⟩)

def iteration (s : StreamState) : StreamState ⊕ (Bool × StreamState) :=
  if ReadsLines s.request then
    match search crlf s.bytes with
    | none => .inr (false, s)
    | some i => resume (s.bytes.drop (i + 2)) (takeLine s.parser s.request (s.bytes.take i))
  else match s.request.parseState with
    | .body =>
      if s.parser.contentLength ≤ s.bytes.length then
        .inr (true, ⟨s.parser, s.bytes.drop s.parser.contentLength,
          { s.request with body := s.bytes.take s.parser.contentLength, parseState := .complete }⟩)
      else .inr (false, s)
    | .complete => .inr (true, s)
    | _ => .inr (false, ⟨{ s.parser with hasError := true }, s.bytes, s.request⟩)

def extend (s : StreamState) (t : Bytes) : StreamState := { s with bytes := s.bytes ++ t }

@[simp] theorem extend_nil (s : StreamState) : s.extend [] = s := by
  simp [extend]

@[simp] theorem extend_extend (s : StreamState) (t u : Bytes) :
    (s.extend t).extend u = s.extend (t ++ u) := by
  simp [extend]

@[simp] theorem parser_extend (s : StreamState) (t : Bytes) : (s.extend t).parser = s.parser := rfl
@[simp] theorem request_extend (s : StreamState) (t : Bytes) : (s.extend t).request = s.request := rfl
@[simp] theorem bytes_extend (s : StreamState) (t : Bytes) : (s.extend t).bytes = s.bytes ++ t := rfl

/-- The parser cannot go on: no complete line, or not yet the whole body. -/
def Starved (s : StreamState) : Prop :=
  (ReadsLines s.request ∧ ¬ crlf <:+: s.bytes) ∨
  (s.request.parseState = .body ∧ s.bytes.length < s.parser.contentLength)

end StreamState

/-- The bytes, request and parser of a context, without the buffer's indices. -/
def view (c : ParseContext) : StreamState := ⟨c.parser, c.buffer.readable, c.request⟩

theorem iteration_view (c : ParseContext) :
    (view c).iteration = c.parseIteration.map view (Prod.map id view) := by
  have hpeek : ∀ i, c.buffer.findCrlf = some i →
      c.buffer.peekString i = c.buffer.readable.take i := by
    intro i hi
    have := findCrlf_bound hi
    exact c.buffer.peekString_eq (by omega)
  unfold StreamState.iteration ParseContext.parseIteration
  cases hs : c.request.parseState with
  | requestLine =>
    have hl : ReadsLines c.request := .inl hs
    simp only [if_pos hl, view, ← c.buffer.findCrlf_eq]
    cases hf : c.buffer.findCrlf with
    | none => rfl
    | some i =>
      simp only [takeLine, hs, if_true, hpeek i hf]
      by_cases hok : (parseRequestLine (c.buffer.readable.take i) c.request).1 = true <;>
        simp [hok, view, StreamState.resume, ParseContext.fail]
  | headers =>
    have hl : ReadsLines c.request := .inr hs
    simp only [if_pos hl, view, ← c.buffer.findCrlf_eq]
    cases hf : c.buffer.findCrlf with
    | none => rfl
    | some i =>
      simp only [takeLine, hs, reduceCtorEq, if_false, hpeek i hf]
      by_cases hnil : c.buffer.readable.take i = []
      · simp only [if_pos hnil]
        by_cases hlen : 0 < c.request.getContentLength <;>
          simp [hlen, view, StreamState.resume]
      · simp only [if_neg hnil]
        by_cases hok : (parseHeaderLine (c.buffer.readable.take i) c.request).1 = true <;>
          simp [hok, view, StreamState.resume, ParseContext.fail]
  | body =>
    have hl : ¬ ReadsLines c.request := by simp [ReadsLines, hs]
    simp only [if_neg hl, view, hs, ByteBuffer.readableBytes_eq]
    by_cases hlen : c.parser.contentLength ≤ c.buffer.readable.length
    · simp [hlen, view, ByteBuffer.retrieveAsString, c.buffer.peekString_eq hlen]
    · simp [hlen, view]
  | complete =>
    have hl : ¬ ReadsLines c.request := by simp [ReadsLines, hs]
    simp [if_neg hl, view, hs]
  | error =>
    have hl : ¬ ReadsLines c.request := by simp [ReadsLines, hs]
    simp [if_neg hl, view, hs, ParseContext.fail]

theorem takeLine_continue {p p' : HttpParser} {q q' : HttpRequest} {line : Bytes}
    (h : takeLine p q line = .inl (p', q')) : p'.hasError = p.hasError := by
  simp only [takeLine] at h
  split_ifs at h <;> simp only [Sum.inl.injEq, Prod.mk.injEq] at h <;> rw [← h.1]

/-- A line ends the parse with a complete request or with the error flag. -/
theorem takeLine_leave {p p' : HttpParser} {q q' : HttpRequest} {line : Bytes} {r : Bool}
    (h : takeLine p q line = .inr (r, p', q')) : r = true ∨ p'.hasError = true := by
  simp only [takeLine] at h
  split_ifs at h <;> simp only [Sum.inr.injEq, Prod.mk.injEq] at h
  · exact .inr (by rw [← h.2.1])
  · exact .inl h.1.symm
  · exact .inr (by rw [← h.2.1])

theorem iteration_line {s : StreamState} (hl : ReadsLines s.request) {i : ℕ}
    (hf : search crlf s.bytes = some i) :
    s.iteration = StreamState.resume (s.bytes.drop (i + 2))
      (takeLine s.parser s.request (s.bytes.take i)) := by
  simp only [StreamState.iteration, if_pos hl, hf]

theorem iteration_starved {s : StreamState} (h : s.Starved) : s.iteration = .inr (false, s) := by
  rcases h with ⟨hl, hn⟩ | ⟨hs, hlt⟩
  · simp only [StreamState.iteration, if_pos hl, (search_eq_none_iff _ _).mpr hn]
  · simp only [StreamState.iteration, ReadsLines, hs, reduceCtorEq, or_self, if_false,
      if_neg (not_le.mpr hlt)]

/-- What one round can do. A round that reads a line does so whatever follows it; the other
rounds leave the loop, starved or with an answer that later bytes do not change. -/
theorem iteration_cases (s : StreamState) :
    s.Starved ∨
    (∃ i p q, search crlf s.bytes = some i ∧
      takeLine s.parser s.request (s.bytes.take i) = .inl (p, q) ∧
      ∀ t, (s.extend t).iteration = .inl ⟨p, s.bytes.drop (i + 2) ++ t, q⟩) ∨
    (∃ (r : Bool) (s' : StreamState), (r = true ∨ s'.parser.hasError = true) ∧ (∃ n, s'.bytes = s.bytes.drop n) ∧
      ∀ t, (s.extend t).iteration = .inr (r, s'.extend t)) := by
  by_cases hl : ReadsLines s.request
  · cases hf : search crlf s.bytes with
    | none => exact .inl (.inl ⟨hl, (search_eq_none_iff _ _).mp hf⟩)
    | some i =>
      have hi := search_lt_length hf
      have hstep : ∀ t, (s.extend t).iteration = StreamState.resume (s.bytes.drop (i + 2) ++ t)
          (takeLine s.parser s.request (s.bytes.take i)) := by
        intro t
        rw [iteration_line (s := s.extend t) hl (search_append cr_ne_lf hf t)]
        simp only [StreamState.bytes_extend, StreamState.parser_extend, StreamState.request_extend,
          List.take_append_of_le_length (show i ≤ s.bytes.length by omega),
          List.drop_append_of_le_length hi]
      cases ht : takeLine s.parser s.request (s.bytes.take i) with
      | inl pq =>
        refine .inr (.inl ⟨i, pq.1, pq.2, rfl, ht, fun t => ?_⟩)
        rw [hstep, ht]
        rfl
      | inr rpq =>
        obtain ⟨r, p, q⟩ := rpq
        refine .inr (.inr ⟨r, ⟨p, s.bytes.drop (i + 2), q⟩, takeLine_leave ht, ⟨i + 2, rfl⟩, ?_⟩)
        intro t
        rw [hstep, ht]
        rfl
  · cases hs : s.request.parseState with
    | requestLine => exact absurd (Or.inl hs) hl
    | headers => exact absurd (Or.inr hs) hl
    | body =>
      by_cases hlen : s.parser.contentLength ≤ s.bytes.length
      · refine .inr (.inr ⟨true, ⟨s.parser, s.bytes.drop s.parser.contentLength,
          { s.request with body := s.bytes.take s.parser.contentLength, parseState := .complete }⟩,
          .inl rfl, ⟨_, rfl⟩, fun t => ?_⟩)
        have hlen' : s.parser.contentLength ≤ (s.bytes ++ t).length := by
          rw [List.length_append]
          omega
        simp only [StreamState.iteration, StreamState.extend, if_neg hl, hs, if_pos hlen',
          List.take_append_of_le_length hlen, List.drop_append_of_le_length hlen]
      · exact .inl (.inr ⟨hs, by omega⟩)
    | complete =>
      refine .inr (.inr ⟨true, s, .inl rfl, ⟨0, rfl⟩, fun t => ?_⟩)
      simp only [StreamState.iteration, StreamState.request_extend, if_neg hl, hs]
    | error =>
      refine .inr (.inr ⟨false, ⟨{ s.parser with hasError := true }, s.bytes, s.request⟩, .inr rfl,
        ⟨0, rfl⟩, fun t => ?_⟩)
      simp only [StreamState.iteration, StreamState.request_extend, if_neg hl, hs]
      rfl

theorem iteration_decreases (s s' : StreamState) (h : s.iteration = .inl s') :
    s'.bytes.length < s.bytes.length := by
  rcases iteration_cases s with hst | ⟨i, p, q, hf, -, ht⟩ | ⟨r, s₁, -, -, ht⟩
  · rw [iteration_starved hst] at h
    cases h
  · have h₀ := ht []
    rw [StreamState.extend_nil, h] at h₀
    obtain rfl := Sum.inl.inj h₀
    have hi := search_lt_length hf
    simp only [List.append_nil, List.length_drop]
    omega
  · have h₀ := ht []
    rw [StreamState.extend_nil, h] at h₀
    cases h₀

def streamLoop : Loop StreamState (Bool × StreamState) where
  iteration := StreamState.iteration
  measure s := s.bytes.length
  decreases := iteration_decreases

def parseStream (s : StreamState) : Bool × StreamState := streamLoop.run s

/-- The code computes the byte machine: the buffer matters only through its readable bytes. -/
theorem parseRequest_view (c : ParseContext) :
    ((parseRequest c).1, view (parseRequest c).2) = parseStream (view c) :=
  (parseLoop.run_map streamLoop view (Prod.map id view) iteration_view c).symm

theorem parseStream_starved {s : StreamState} (h : s.Starved) : parseStream s = (false, s) :=
  streamLoop.run_leave (iteration_starved h)

theorem parseStream_line {s : StreamState} {p : HttpParser} {q : HttpRequest} {rest : Bytes}
    (h : s.iteration = .inl ⟨p, rest, q⟩) : parseStream s = parseStream ⟨p, rest, q⟩ :=
  streamLoop.run_continue h

/-- What a call can return, and how the answer stands to bytes that arrive later: a starved
call left everything as a later call needs it, any other call has decided. -/
theorem parseStream_extend (s : StreamState) :
    (∃ n, (parseStream s).2.bytes = s.bytes.drop n) ∧
    ((parseStream s).1 = false ∧ (parseStream s).2.Starved ∧
      (parseStream s).2.parser.hasError = s.parser.hasError ∧
      (∀ t, parseStream (s.extend t) = parseStream ((parseStream s).2.extend t)) ∨
    ((parseStream s).1 = true ∨ (parseStream s).2.parser.hasError = true) ∧
      ∀ t, parseStream (s.extend t) = ((parseStream s).1, (parseStream s).2.extend t)) := by
  refine streamLoop.run_induction (P := fun s x =>
    (∃ n, x.2.bytes = s.bytes.drop n) ∧
    (x.1 = false ∧ x.2.Starved ∧ x.2.parser.hasError = s.parser.hasError ∧
      (∀ t, parseStream (s.extend t) = parseStream (x.2.extend t)) ∨
    (x.1 = true ∨ x.2.parser.hasError = true) ∧
      ∀ t, parseStream (s.extend t) = (x.1, x.2.extend t))) ?_ ?_ s
  · intro s x hx
    change s.iteration = .inr x at hx
    rcases iteration_cases s with hst | ⟨i, p, q, -, -, ht⟩ | ⟨r, s₁, hr, hn, ht⟩
    · rw [iteration_starved hst] at hx
      obtain rfl := Sum.inr.inj hx
      exact ⟨⟨0, rfl⟩, .inl ⟨rfl, hst, rfl, fun _ => rfl⟩⟩
    · have h₀ := ht []
      rw [StreamState.extend_nil, hx] at h₀
      cases h₀
    · have h₀ := ht []
      rw [StreamState.extend_nil, hx, StreamState.extend_nil] at h₀
      obtain rfl := Sum.inr.inj h₀
      exact ⟨hn, .inr ⟨hr, fun t => streamLoop.run_leave (ht t)⟩⟩
  · intro s s' hs ih
    change s.iteration = .inl s' at hs
    rcases iteration_cases s with hst | ⟨i, p, q, -, htl, ht⟩ | ⟨r, s₁, -, -, ht⟩
    · rw [iteration_starved hst] at hs
      cases hs
    · have h₀ := ht []
      rw [StreamState.extend_nil, hs, List.append_nil] at h₀
      obtain rfl := Sum.inl.inj h₀
      have hrun : ∀ t, parseStream (s.extend t) =
          parseStream (StreamState.extend ⟨p, s.bytes.drop (i + 2), q⟩ t) :=
        fun t => streamLoop.run_continue (ht t)
      obtain ⟨⟨n, hn⟩, hcase⟩ := ih
      refine ⟨⟨i + 2 + n, by rw [hn, List.drop_drop]⟩, ?_⟩
      rcases hcase with ⟨h₁, h₂, h₃, h₄⟩ | ⟨h₁, h₂⟩
      · exact .inl ⟨h₁, h₂, h₃.trans (takeLine_continue htl), fun t => (hrun t).trans (h₄ t)⟩
      · exact .inr ⟨h₁, fun t => (hrun t).trans (h₂ t)⟩
    · have h₀ := ht []
      rw [StreamState.extend_nil, hs] at h₀
      cases h₀

end TzzeroHttp.ParserStream
