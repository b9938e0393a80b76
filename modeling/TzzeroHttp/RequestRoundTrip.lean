import TzzeroHttp.ParserContentLength

/-! Printing a request and parsing the text again. The printer walks the header map in an
arbitrary order; the parser trims, lowers and joins what it reads, and none of that changes a
request whose fields are already in the form that the parser leaves. -/
namespace TzzeroHttp.RequestRoundTrip
open ByteText HeaderMap BufferQueue RequestModel ParserModel ParserStream ParserLines
open ParserGrammar ParserContentLength ListSearch

/-- No blank at either end. -/
def Trimmed (s : Bytes) : Prop :=
  (∀ c ∈ s.head?, isBlank c = false) ∧ ∀ c ∈ s.getLast?, isBlank c = false
deriving Decidable

/-- The requests that a text can carry. The size of the body is a `size_t`. -/
structure Printable (q : HttpRequest) : Prop where
  method : q.method ≠ .invalid
  version : q.version ≠ .unknown
  path : ∀ c ∈ q.path, isSpace c = false ∧ c ≠ question
  query : ∀ c ∈ q.query, isSpace c = false
  target : q.path ≠ [] ∨ q.query ≠ []
  name : ∀ f ∈ q.headers.entries, f.1 ≠ [] ∧ lower f.1 = f.1 ∧ Trimmed f.1 ∧
    ∀ c ∈ f.1, c ≠ colon ∧ c ≠ cr ∧ c ≠ lf
  value : ∀ f ∈ q.headers.entries, Trimmed f.2 ∧ ∀ c ∈ f.2, c ≠ cr ∧ c ≠ lf
  length : (q.headers.lookup (ascii "content-length") = none ∧ q.body = []) ∨
    ∃ d, q.headers.lookup (ascii "content-length") = some d ∧ d ≠ [] ∧
      (∀ c ∈ d, isDigit c = true) ∧ digitsValue d = q.body.length
  size : q.body.length < 2 ^ 64

def targetText (q : HttpRequest) : Bytes :=
  if q.query = [] then q.path else q.path ++ (question :: q.query)

def requestText (q : HttpRequest) : Bytes :=
  q.getMethodString ++ (ascii " " ++ (targetText q ++ (ascii " " ++ q.getVersionString)))

theorem foldl_fieldText (order : List Field) (oss : Bytes) :
    order.foldl (fun oss header => oss ++ header.1 ++ ascii ": " ++ header.2 ++ crlf) oss =
      oss ++ joinLines (order.map fieldText) := by
  induction order generalizing oss with
  | nil => simp
  | cons f order ih =>
    rw [List.foldl_cons, ih]
    simp [fieldText]

theorem toString_eq (q : HttpRequest) (order : List Field) : q.toString order =
    requestText q ++ crlf ++ joinLines (order.map fieldText) ++ crlf ++ q.body := by
  have hquestion : ascii "?" = [question] := by decide
  unfold HttpRequest.toString requestText targetText
  simp only [foldl_fieldText, hquestion]
  by_cases hquery : q.query = []
  · by_cases hbody : q.body = [] <;> simp [hquery, hbody]
  · by_cases hbody : q.body = [] <;> simp [hquery, hbody]

theorem getMethodString_mem {q : HttpRequest} (h : q.method ≠ .invalid) :
    (q.getMethodString, q.method) ∈ methodNames := by
  unfold HttpRequest.getMethodString
  cases hm : q.method with
  | invalid => exact absurd hm h
  | _ => simp [methodNames]

theorem getVersionString_mem {q : HttpRequest} (h : q.version ≠ .unknown) :
    (q.getVersionString, q.version) ∈ versionNames := by
  unfold HttpRequest.getVersionString
  cases hv : q.version with
  | unknown => exact absurd hv h
  | _ => simp [versionNames]

theorem names_plain : (∀ p ∈ methodNames, p.1 ≠ [] ∧ ∀ c ∈ p.1, isSpace c = false) ∧
    ∀ p ∈ versionNames, p.1 ≠ [] ∧ ∀ c ∈ p.1, isSpace c = false := by
  have hmethods : methodNames.all (fun p => !p.1.isEmpty && p.1.all (!isSpace ·)) = true := by decide
  have hversions : versionNames.all (fun p => !p.1.isEmpty && p.1.all (!isSpace ·)) = true := by decide
  constructor
  · simpa [List.all_eq_true] using hmethods
  · simpa [List.all_eq_true] using hversions

variable {q : HttpRequest}

theorem targetText_plain (h : Printable q) :
    targetText q ≠ [] ∧ ∀ c ∈ targetText q, isSpace c = false := by
  have hquestion : isSpace question = false := by decide
  unfold targetText
  split_ifs with hquery
  · refine ⟨h.target.resolve_right (not_not.mpr hquery), fun c hc => (h.path c hc).1⟩
  · refine ⟨by simp, fun c hc => ?_⟩
    rw [List.mem_append, List.mem_cons] at hc
    rcases hc with hc | rfl | hc
    · exact (h.path c hc).1
    · exact hquestion
    · exact h.query c hc

theorem requestText_line (h : Printable q) :
    RequestLine (requestText q) q.method (targetText q) q.version := by
  obtain ⟨hmethod, hmethod'⟩ := names_plain.1 _ (getMethodString_mem h.method)
  obtain ⟨hversion, hversion'⟩ := names_plain.2 _ (getVersionString_mem h.version)
  obtain ⟨htarget, htarget'⟩ := targetText_plain h
  have hspace : ascii " " = [32] := by decide
  refine ⟨q.getMethodString, q.getVersionString, [], ?_, getMethodString_mem h.method,
    getVersionString_mem h.version⟩
  have hlast : words q.getVersionString = [q.getVersionString] := by
    rw [← List.append_nil q.getVersionString, words_word hversion hversion' (by simp), words_nil,
      List.append_nil]
  rw [requestText, hspace, words_word hmethod hmethod' (by simp [isSpace]), List.singleton_append,
    words_space (by decide), words_word htarget htarget' (by simp [isSpace]), List.singleton_append,
    words_space (by decide), hlast]

section Lines
variable {f : Field}

theorem headerField_of_trimmed (h : Trimmed f.1) : headerField (fieldText f) f.1.length = f.1 := by
  rw [headerField, fieldText_eq, List.take_left, trimRight_eq_self h.2, trimLeft_eq_self h.1]

/-- Of a printed value trimming takes the blank that the printer put in front. -/
theorem headerValue_of_trimmed (h : Trimmed f.2) (heol : ∀ c ∈ f.2, c ≠ cr ∧ c ≠ lf) :
    headerValue (fieldText f) f.1.length = f.2 := by
  have hdrop : (fieldText f).drop (f.1.length + 1) = 32 :: f.2 := by
    rw [fieldText_eq, ← List.drop_drop, List.drop_left]
    rfl
  rw [headerValue, hdrop]
  cases hv : f.2 with
  | nil => decide
  | cons c v =>
    have hlast : ∀ d ∈ (32 :: c :: v).getLast?, isBlankOrEol d = false := by
      intro d hd
      rw [List.getLast?_cons_cons, ← hv] at hd
      obtain ⟨hcr, hlf⟩ := heol d (List.mem_of_mem_getLast? hd)
      simp [isBlankOrEol, h.2 d hd, hcr, hlf]
    rw [trimRight_eq_self hlast, trimLeft, List.dropWhile_cons_of_pos (by decide), ← hv]
    exact trimLeft_eq_self h.1

theorem fieldText_unbroken (hname : cr ∉ f.1) (hvalue : cr ∉ f.2) : Unbroken (fieldText f) := by
  intro h
  have hcr : cr ∈ fieldText f := h.subset (by simp [crlf])
  have hcolon : cr ≠ colon := by decide
  have hblank : cr ≠ 32 := by decide
  rw [fieldText_eq] at hcr
  simp [hname, hvalue, hcolon, hblank] at hcr

end Lines

theorem fieldText_fieldLine (h : Printable q) {f : Field} (hf : f ∈ q.headers.entries) :
    FieldLine (fieldText f) := by
  obtain ⟨hne, -, htrim, hname⟩ := h.name f hf
  obtain ⟨-, hvalue⟩ := h.value f hf
  refine ⟨by simp [fieldText_eq], ?_, ?_⟩
  · exact fieldText_unbroken (fun hm => (hname cr hm).2.1 rfl) fun hm => (hvalue cr hm).1 rfl
  · refine ⟨f.1, 32 :: f.2, fieldText_eq f, fun hm => (hname colon hm).1 rfl, ?_⟩
    obtain ⟨c, s, hs⟩ := List.exists_cons_of_ne_nil hne
    exact ⟨c, by simp [hs], htrim.1 c (by simp [hs])⟩

theorem filterMap_eq_dlookup {order : List Field} (h : order.NodupKeys) (name : Bytes) :
    (order.filterMap fun f => if f.1 = name then some f.2 else none) = (order.dlookup name).toList := by
  induction order with
  | nil => rfl
  | cons f order ih =>
    obtain ⟨hnot, hrest⟩ := List.nodupKeys_cons.mp h
    by_cases hf : f.1 = name
    · subst hf
      have hnone : order.dlookup f.1 = none := List.dlookup_eq_none.mpr hnot
      rw [List.filterMap_cons, if_pos rfl, ih hrest, hnone]
      exact congrArg Option.toList (List.dlookup_cons_eq order f.1 f.2).symm
    · rw [List.filterMap_cons, if_neg hf, ih hrest, List.dlookup_cons_ne _ _ (Ne.symm hf)]

/-- Parsing the printed lines gives the table back. -/
theorem lookup_printed (h : Printable q) {order : List Field} (horder : order.Perm q.headers.entries)
    (name : Bytes) : (headerTable (order.map fieldText)).lookup name = q.headers.lookup name := by
  have hvalues : valuesOf name (order.map fieldText) =
      order.filterMap fun f => if f.1 = name then some f.2 else none := by
    rw [valuesOf, List.filterMap_map]
    apply List.filterMap_congr
    intro f hf
    have hmem := horder.mem_iff.mp hf
    obtain ⟨-, hlower, htrim, hname⟩ := h.name f hmem
    obtain ⟨htrim', hvalue⟩ := h.value f hmem
    have hcolon : (fieldText f).idxOf? colon = some f.1.length := by
      rw [fieldText_eq]
      exact idxOf?_cut fun hm => (hname colon hm).1 rfl
    simp only [Function.comp_apply, hcolon, Option.bind_some, headerField_of_trimmed htrim, hlower,
      headerValue_of_trimmed htrim' hvalue]
  have hkeys : order.NodupKeys := (List.perm_nodupKeys horder).mpr q.headers.nodupKeys
  rw [lookup_headerTable, hvalues, filterMap_eq_dlookup hkeys, List.perm_dlookup name hkeys horder,
    AList.lookup]
  cases q.headers.entries.dlookup name with
  | none => rfl
  | some v => simp [joinValues]

theorem bodyLength_printed (h : Printable q) {order : List Field}
    (horder : order.Perm q.headers.entries) :
    q.body.length = bodyLength (headerTable (order.map fieldText)) := by
  rw [bodyLength_eq, lengthValues, ← lookup_headerTable, lookup_printed h horder]
  rcases h.length with ⟨hnone, hbody⟩ | ⟨d, hd, hne, hdigits, hvalue⟩
  · rw [hnone, hbody]
    rfl
  · have hend : ∀ c ∈ ([] : Bytes).head?, isDigit c = false := by simp
    have hread := stoull_digits hne hdigits hend
    rw [List.append_nil, hvalue, if_pos h.size] at hread
    rw [hd, Option.bind_some, hread, Option.getD_some]

theorem setTarget_targetText (h : Printable q) (q₀ : HttpRequest) (hq₀ : q₀.query = []) :
    (setTarget q₀ (targetText q)).path = q.path ∧ (setTarget q₀ (targetText q)).query = q.query := by
  have hpath : question ∉ q.path := fun hm => (h.path question hm).2 rfl
  unfold targetText setTarget
  by_cases hquery : q.query = []
  · have hnone : q.path.idxOf? question = none := List.idxOf?_eq_none_iff.mpr hpath
    simp [hquery, hnone, hq₀]
  · have hcut : (q.path ++ question :: q.query).idxOf? question = some q.path.length := idxOf?_cut hpath
    simp only [if_neg hquery, hcut, List.take_left, true_and]
    rw [← List.drop_drop, List.drop_left]
    rfl

theorem requestText_unbroken (h : Printable q) : Unbroken (requestText q) := by
  obtain ⟨-, hmethod⟩ := names_plain.1 _ (getMethodString_mem h.method)
  obtain ⟨-, hversion⟩ := names_plain.2 _ (getVersionString_mem h.version)
  obtain ⟨-, htarget⟩ := targetText_plain h
  have hcr : isSpace cr = true := by decide
  have hblank : cr ∉ ascii " " := by decide
  have hfree : ∀ s : Bytes, (∀ c ∈ s, isSpace c = false) → cr ∉ s := by
    intro s hs hm
    rw [hs cr hm] at hcr
    cases hcr
  intro hcut
  have hmem : cr ∈ requestText q := hcut.subset (by simp [crlf])
  simp only [requestText, List.mem_append] at hmem
  have hm := hfree _ hmethod
  have hv := hfree _ hversion
  have ht := hfree _ htarget
  tauto

/-- Whatever the order in which the header map is walked, parsing the text of a request
completes at its end and gives the request back. -/
theorem parse_toString (q : HttpRequest) (order : List Field) (b : ByteBuffer) (hq : Printable q)
    (horder : order.Perm q.headers.entries) (hb : b.readable = q.toString order) :
    let r := parseRequest ⟨{}, b, {}⟩
    r.1 = true ∧ r.2.buffer.readable = [] ∧ r.2.parser.hasError = false ∧
      r.2.request.method = q.method ∧ r.2.request.path = q.path ∧ r.2.request.query = q.query ∧
      r.2.request.version = q.version ∧
      (∀ name, r.2.request.headers.lookup name = q.headers.lookup name) ∧
      r.2.request.body = q.body := by
  intro r
  have hmessage : Message (q.toString order) (requestText q) (order.map fieldText) q.body [] := by
    constructor
    · rw [toString_eq, List.append_nil]
    · exact requestText_unbroken hq
    · exact ⟨_, _, _, requestText_line hq⟩
    · intro line hline
      obtain ⟨f, hf, rfl⟩ := List.mem_map.mp hline
      exact fieldText_fieldLine hq (horder.mem_iff.mp hf)
    · exact bodyLength_printed hq horder
  obtain ⟨p, hp, hrun⟩ := message_complete hmessage (requestText_line hq) {}
  have hview : (r.1, view r.2) = (true, ⟨p, [], messageRequest q.method (targetText q) q.version
      (order.map fieldText) q.body⟩) := by
    rw [parseRequest_view, ← hrun, ← hb]
    rfl
  obtain ⟨hret, hstate⟩ := Prod.mk.inj hview
  have hrequest : r.2.request = messageRequest q.method (targetText q) q.version
      (order.map fieldText) q.body := congrArg StreamState.request hstate
  have hparser : r.2.parser = p := congrArg StreamState.parser hstate
  obtain ⟨hpath, hquery⟩ := setTarget_targetText hq { method := q.method } rfl
  have hmethod := (setTarget_headers { method := q.method } (targetText q)).2.2
  refine ⟨hret, congrArg StreamState.bytes hstate, by rw [hparser, hp], ?_⟩
  rw [hrequest]
  exact ⟨hmethod, hpath, hquery, rfl, lookup_printed hq horder, rfl⟩

/-- A request with a query that holds a question mark, an empty header value, and a body that
looks like the end of a header section. -/
def blankBodyRequest : HttpRequest :=
  { ((({} : HttpRequest).setHeader (ascii "accept") []).setHeader (ascii "content-length") (ascii "04")) with
    method := .post, path := ascii "/a", query := ascii "x=?1", version := .http10, body := crlf ++ crlf }

theorem parse_toString_blank_body :
    ∃ b : ByteBuffer, b.readable = blankBodyRequest.toString blankBodyRequest.headers.entries.reverse ∧
      Printable blankBodyRequest ∧ (parseRequest ⟨{}, b, {}⟩).1 = true ∧
      (parseRequest ⟨{}, b, {}⟩).2.buffer.readable = [] ∧
      (parseRequest ⟨{}, b, {}⟩).2.request.body = crlf ++ crlf := by
  have hq : Printable blankBodyRequest := by
    constructor
    · decide
    · decide
    · have hall : blankBodyRequest.path.all (fun c => !isSpace c && c != question) = true := by decide
      simpa [List.all_eq_true] using hall
    · have hall : blankBodyRequest.query.all (!isSpace ·) = true := by decide
      simpa [List.all_eq_true] using hall
    · exact .inl (by decide)
    · have hall : blankBodyRequest.headers.entries.all (fun f => !f.1.isEmpty && lower f.1 == f.1 &&
          (f.1.head?.all (!isBlank ·) && f.1.getLast?.all (!isBlank ·)) &&
          f.1.all fun c => c != colon && c != cr && c != lf) = true := by decide
      simpa [Trimmed, List.all_eq_true, Option.all_eq_true, and_assoc] using hall
    · have hall : blankBodyRequest.headers.entries.all (fun f =>
          (f.2.head?.all (!isBlank ·) && f.2.getLast?.all (!isBlank ·)) &&
          f.2.all fun c => c != cr && c != lf) = true := by decide
      simpa [Trimmed, List.all_eq_true, Option.all_eq_true, and_assoc] using hall
    · exact .inr ⟨ascii "04", by decide, by decide, List.all_eq_true.mp (by decide), by decide⟩
    · decide
  have hheld : ∀ s : Bytes, ∃ b : ByteBuffer, b.readable = s :=
    fun s => ⟨(ByteBuffer.new 64).append s, by simp⟩
  obtain ⟨b, hb⟩ := hheld (blankBodyRequest.toString blankBodyRequest.headers.entries.reverse)
  obtain ⟨hret, hrest, -, -, -, -, -, -, hbody⟩ := parse_toString blankBodyRequest
    blankBodyRequest.headers.entries.reverse b hq (List.reverse_perm _) hb
  exact ⟨b, hb, hq, hret, hrest, hbody⟩

end TzzeroHttp.RequestRoundTrip
