import TzzeroHttp.ParserStream

/-! The end of the parse loop. Every call returns, and one that returns false without setting the
error flag has stopped for lack of data, so that a further call on the same data does nothing. -/
namespace TzzeroHttp.ParserTermination
open ByteText BoundedLoop BufferQueue RequestModel ParserModel ParserStream ListSearch

/-- The context with a parser whose error flag is raised if `set`, and else as it is. -/
def flagged (set : Bool) (c : ParseContext) : ParseContext :=
  { c with parser := { c.parser with hasError := set || c.parser.hasError } }

def cleared (c : ParseContext) : ParseContext := { c with parser := { c.parser with hasError := false } }

/-- The call assigns to `has_error_`: with the flag down before the call it is up afterwards. -/
def SetsError (c : ParseContext) : Prop := (parseRequest (cleared c)).2.parser.hasError = true

/-- The request waits for a line and no CR LF is there, or for a body and not all of it is there. -/
def LacksData (c : ParseContext) : Prop :=
  (c.request.parseState = .requestLine ∨ c.request.parseState = .headers) ∧
      ¬ crlf <:+: c.buffer.readable ∨
    c.request.parseState = .body ∧ c.buffer.readable.length < c.parser.contentLength

/-- No round of the loop reads the error flag. -/
theorem parseIteration_flagged (set : Bool) (c : ParseContext) :
    (flagged set c).parseIteration =
      c.parseIteration.map (flagged set) (Prod.map id (flagged set)) := by
  unfold ParseContext.parseIteration flagged
  cases hs : c.request.parseState with
  | requestLine =>
    cases hf : c.buffer.findCrlf with
    | none => rfl
    | some i =>
      by_cases hok : (parseRequestLine (c.buffer.peekString i) c.request).1 = true <;>
        simp [hok, ParseContext.fail]
  | headers =>
    cases hf : c.buffer.findCrlf with
    | none => rfl
    | some i =>
      by_cases hnil : c.buffer.peekString i = []
      · by_cases hlen : 0 < c.request.getContentLength <;> simp [hnil, hlen]
      · by_cases hok : (parseHeaderLine (c.buffer.peekString i) c.request).1 = true <;>
          simp [hnil, hok, ParseContext.fail]
  | body =>
    by_cases hlen : c.parser.contentLength ≤ c.buffer.readable.length <;> simp [hlen]
  | complete => rfl
  | error => simp [ParseContext.fail]

/-- A call does the same with the flag up or down, and a flag that is up stays up. -/
theorem parseRequest_flagged (set : Bool) (c : ParseContext) :
    parseRequest (flagged set c) = Prod.map id (flagged set) (parseRequest c) :=
  parseLoop.run_map parseLoop (flagged set) (Prod.map id (flagged set)) (parseIteration_flagged set) c

theorem flagged_cleared (c : ParseContext) : flagged c.parser.hasError (cleared c) = c := by
  simp [flagged, cleared]

theorem lacksData_flagged (set : Bool) (c : ParseContext) : LacksData (flagged set c) ↔ LacksData c := Iff.rfl

theorem lacksData_iff_starved (c : ParseContext) : LacksData c ↔ (view c).Starved := Iff.rfl

/-- With too little data the loop is left in its first round, and everything stays as it is. -/
theorem parseRequest_lacksData {c : ParseContext} (h : LacksData c) : parseRequest c = (false, c) := by
  refine parseLoop.run_leave ?_
  show c.parseIteration = _
  unfold ParseContext.parseIteration
  rcases h with ⟨hstate, hnone⟩ | ⟨hbody, hshort⟩
  · have hfind : c.buffer.findCrlf = none := by
      rw [c.buffer.findCrlf_eq, search_eq_none_iff]
      exact hnone
    rcases hstate with hs | hs <;> simp only [hs, hfind]
  · have hnot : ¬ c.parser.contentLength ≤ c.buffer.readableBytes := by
      rw [ByteBuffer.readableBytes_eq]
      omega
    simp only [hbody, if_neg hnot]

theorem lacksData_of_false {c : ParseContext} (hfalse : (parseRequest c).1 = false)
    (hset : ¬ SetsError c) : LacksData (parseRequest c).2 := by
  have hflag := parseRequest_flagged c.parser.hasError (cleared c)
  rw [flagged_cleared] at hflag
  have hview := parseRequest_view (cleared c)
  have hret : (parseStream (view (cleared c))).1 = false := by
    rw [← hview]
    rw [hflag] at hfalse
    exact hfalse
  have herror : (parseStream (view (cleared c))).2.parser.hasError ≠ true := by
    rw [← hview]
    exact hset
  rw [hflag, Prod.map_snd, lacksData_flagged, lacksData_iff_starved]
  have hstate : view (parseRequest (cleared c)).2 = (parseStream (view (cleared c))).2 :=
    congrArg Prod.snd hview
  rw [hstate]
  rcases (parseStream_extend (view (cleared c))).2 with ⟨-, hstarved, -, -⟩ | ⟨hdone | hup, -⟩
  · exact hstarved
  · rw [hret] at hdone
    cases hdone
  · exact absurd hup herror

/-- For every buffer, parser and request the loop ends; what is left in the buffer is the end of what
was there; and a call that returns false without setting the error flag lacks data, so that another
call returns false and changes nothing. -/
theorem parseRequest_ends (c : ParseContext) :
    (∃ n, iterate ParseContext.parseIteration n c = some (parseRequest c)) ∧
      (parseRequest c).2.buffer.readable <:+ c.buffer.readable ∧
      ((parseRequest c).1 = false → ¬ SetsError c → LacksData (parseRequest c).2 ∧
        parseRequest (parseRequest c).2 = (false, (parseRequest c).2)) := by
  refine ⟨⟨c.buffer.readable.length + 1, (Option.some_get _).symm⟩, ?_, fun hfalse hset => ?_⟩
  · obtain ⟨⟨n, hn⟩, -⟩ := parseStream_extend (view c)
    have hbytes : (parseRequest c).2.buffer.readable = (parseStream (view c)).2.bytes :=
      congrArg (fun x => x.2.bytes) (parseRequest_view c)
    rw [hbytes, hn]
    exact List.drop_suffix n _
  · have hlacks := lacksData_of_false hfalse hset
    exact ⟨hlacks, parseRequest_lacksData hlacks⟩

/-- A request line and the beginning of a header, with the flag up from an earlier call. -/
theorem parseRequest_ends_header :
    let b := (ByteBuffer.new 32).append (ascii "GET / HTTP/1.1\r\nHost")
    let c : ParseContext := ⟨{ hasError := true }, b, {}⟩
    (parseRequest c).1 = false ∧ LacksData (parseRequest c).2 ∧
      parseRequest (parseRequest c).2 = (false, (parseRequest c).2) := by
  intro b c
  have hfalse : (parseRequest c).1 = false := by decide
  have hset : ¬ SetsError c := by
    unfold SetsError
    decide
  exact ⟨hfalse, (parseRequest_ends c).2.2 hfalse hset⟩

end TzzeroHttp.ParserTermination
