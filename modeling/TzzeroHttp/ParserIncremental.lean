import TzzeroHttp.ParserStream

/-! Feeding a stream to one parser, one buffer and one request chunk by chunk gives what
feeding it whole gives, for every way of cutting it. -/
namespace TzzeroHttp.ParserIncremental
open ByteText BufferQueue RequestModel ParserModel ParserStream

inductive Outcome
  | complete | error | incomplete
  deriving DecidableEq, Repr

/-- How a caller reads the answer of `parse_request`. -/
def outcome (complete hasError : Bool) : Outcome :=
  if complete then .complete else if hasError then .error else .incomplete

def arrive (c : ParseContext) (data : Bytes) : ParseContext :=
  { c with buffer := c.buffer.append data }

/-- Append the chunks one by one and call `parse_request` after each, until a call completes
or reports an error. The last component are the chunks not fed. -/
def feed (c : ParseContext) : List Bytes → Outcome × ParseContext × List Bytes
  | [] => (.incomplete, c, [])
  | x :: xs =>
    let r := parseRequest (arrive c x)
    match outcome r.1 r.2.parser.hasError with
    | .incomplete => feed r.2 xs
    | o => (o, r.2, xs)

def calls (c : ParseContext) (chunks : List Bytes) : ParseContext :=
  chunks.foldl (fun c x => (parseRequest (arrive c x)).2) c

def fresh (initial : ℕ) : ParseContext := ⟨{}, ByteBuffer.new initial, {}⟩

theorem view_arrive (c : ParseContext) (data : Bytes) :
    view (arrive c data) = (view c).extend data := by
  simp [view, arrive, StreamState.extend]

theorem parseRequest_arrive (c : ParseContext) (data : Bytes) :
    (parseRequest (arrive c data)).1 = (parseStream ((view c).extend data)).1 ∧
      view (parseRequest (arrive c data)).2 = (parseStream ((view c).extend data)).2 := by
  have h := parseRequest_view (arrive c data)
  rw [view_arrive] at h
  exact ⟨congrArg Prod.fst h, congrArg Prod.snd h⟩

theorem parseRequest_fresh (initial : ℕ) (s : Bytes) :
    (parseRequest (arrive (fresh initial) s)).1 = (parseStream ⟨{}, s, {}⟩).1 ∧
      view (parseRequest (arrive (fresh initial) s)).2 = (parseStream ⟨{}, s, {}⟩).2 := by
  have h := parseRequest_arrive (fresh initial) s
  have hstart : (view (fresh initial)).extend s = ⟨{}, s, {}⟩ := by
    simp [view, fresh, StreamState.extend]
  rwa [hstart] at h

theorem feed_eq {c : ParseContext} (hst : (view c).Starved) (herr : c.parser.hasError = false)
    (chunks : List Bytes) :
    let z := parseStream ((view c).extend chunks.flatten)
    (feed c chunks).1 = outcome z.1 z.2.parser.hasError ∧
      (view (feed c chunks).2.1).extend (feed c chunks).2.2.flatten = z.2 := by
  induction chunks generalizing c with
  | nil =>
    simp only [List.flatten_nil, StreamState.extend_nil, parseStream_starved hst, feed]
    exact ⟨by simp [outcome, view, herr], trivial⟩
  | cons x xs ih =>
    obtain ⟨hret, hview⟩ := parseRequest_arrive c x
    have herr' : (parseRequest (arrive c x)).2.parser.hasError =
        (parseStream ((view c).extend x)).2.parser.hasError := by rw [← hview]; rfl
    have hwhole : (view c).extend (x :: xs).flatten = ((view c).extend x).extend xs.flatten := by
      simp
    obtain ⟨-, hcase⟩ := parseStream_extend ((view c).extend x)
    simp only [feed, hret, herr', hwhole]
    rcases hcase with ⟨hfalse, hst', hsame, hresume⟩ | ⟨hdone, hext⟩
    · have hno : (parseStream ((view c).extend x)).2.parser.hasError = false := by
        rw [hsame]
        exact herr
      have hinc : outcome (parseStream ((view c).extend x)).1
          (parseStream ((view c).extend x)).2.parser.hasError = .incomplete := by
        simp [outcome, hfalse, hno]
      rw [hinc, hresume, ← hview]
      exact ih (by rw [hview]; exact hst') (by rw [herr']; exact hno)
    · have hdec : outcome (parseStream ((view c).extend x)).1
          (parseStream ((view c).extend x)).2.parser.hasError ≠ .incomplete := by
        rcases hdone with h | h <;> simp only [outcome, h] <;> split_ifs <;> simp
      rw [hext]
      generalize hz : parseStream ((view c).extend x) = z at *
      cases ho : outcome z.1 z.2.parser.hasError with
      | incomplete => exact absurd ho hdec
      | complete => exact ⟨ho.symm, by rw [hview]⟩
      | error => exact ⟨ho.symm, by rw [hview]⟩

theorem fresh_starved (initial : ℕ) : (view (fresh initial)).Starved := by
  refine .inl ⟨.inl rfl, ?_⟩
  simp [view, fresh, crlf]

/-- The parser is incremental: every division of a byte string into chunks, empty ones
included, gives the outcome, the request and the unconsumed bytes of the whole string in
one call. -/
theorem feed_incremental (initial : ℕ) (chunks : List Bytes) :
    let whole := parseRequest (arrive (fresh initial) chunks.flatten)
    let parts := feed (fresh initial) chunks
    parts.1 = outcome whole.1 whole.2.parser.hasError ∧
      parts.2.1.request = whole.2.request ∧
      parts.2.1.buffer.readable ++ parts.2.2.flatten = whole.2.buffer.readable := by
  intro whole parts
  obtain ⟨hret, hview⟩ := parseRequest_arrive (fresh initial) chunks.flatten
  obtain ⟨hout, hstate⟩ := feed_eq (fresh_starved initial) rfl chunks
  rw [← hret, ← hview] at hout
  rw [← hview] at hstate
  exact ⟨hout, congrArg StreamState.request hstate, congrArg StreamState.bytes hstate⟩

end TzzeroHttp.ParserIncremental
