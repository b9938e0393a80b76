import TzzeroHttp.ParserGrammar

/-! What the Content-Length lines of a request make of its body. `add_header` joins repeated
lines with commas and `stoull` reads the joined text; a text it refuses counts as zero, and
no text is an error. -/
namespace TzzeroHttp.ParserContentLength
open ByteText HeaderMap BufferQueue RequestModel ParserModel ParserStream ParserLines
open ParserIncremental ParserGrammar ListSearch

/-- The trimmed values of the lines whose trimmed name is `name` up to case, in order. -/
def valuesOf (name : Bytes) (fields : List Bytes) : List Bytes :=
  fields.filterMap fun line => (line.idxOf? colon).bind fun i =>
    if lower (headerField line i) = name then some (headerValue line i) else none

def joinValues : List Bytes → Option Bytes
  | [] => none
  | v :: vs => some (v ++ vs.flatMap (ascii ", " ++ ·))

theorem joinValues_append (vs : List Bytes) (v : Bytes) :
    joinValues (vs ++ [v]) = some (match joinValues vs with
      | some old => old ++ (ascii ", " ++ v)
      | none => v) := by
  cases vs with
  | nil => simp [joinValues]
  | cons w vs => simp [joinValues]

theorem valuesOf_append (name : Bytes) (fields : List Bytes) (line : Bytes) :
    valuesOf name (fields ++ [line]) = valuesOf name fields ++ valuesOf name [line] := by
  simp [valuesOf]

theorem lookup_addLine {name : Bytes} {h : Headers} {fields : List Bytes}
    (hh : h.lookup name = joinValues (valuesOf name fields)) (line : Bytes) :
    (addLine h line).lookup name = joinValues (valuesOf name (fields ++ [line])) := by
  rw [valuesOf_append]
  cases hi : line.idxOf? colon with
  | none => simpa [addLine, valuesOf, hi] using hh
  | some i =>
    by_cases hname : lower (headerField line i) = name
    · have hone : valuesOf name [line] = [headerValue line i] := by simp [valuesOf, hi, hname]
      rw [hone, joinValues_append, ← hh]
      simp only [addLine, hi]
      subst hname
      exact Headers.lookup_add_self _ _ _
    · have hone : valuesOf name [line] = [] := by simp [valuesOf, hi, hname]
      rw [hone, List.append_nil, ← hh]
      simp only [addLine, hi]
      exact Headers.lookup_add_ne _ _ (Ne.symm hname)

theorem lookup_headerTable (name : Bytes) (fields : List Bytes) :
    (headerTable fields).lookup name = joinValues (valuesOf name fields) := by
  induction fields using List.reverseRecOn with
  | nil => rfl
  | append_singleton fields line ih =>
    have htable : headerTable (fields ++ [line]) = addLine (headerTable fields) line := by
      simp [headerTable]
    rw [htable]
    exact lookup_addLine ih line

def lengthValues (fields : List Bytes) : List Bytes := valuesOf (ascii "content-length") fields

theorem bodyLength_eq (fields : List Bytes) :
    bodyLength (headerTable fields) = ((joinValues (lengthValues fields)).bind stoull).getD 0 := by
  have hlow : lower (ascii "content-length") = ascii "content-length" := by decide
  have hnil : stoull [] = none := rfl
  simp only [bodyLength, HttpRequest.getContentLength, HttpRequest.getHeader, Headers.get, hlow,
    lookup_headerTable, lengthValues]
  cases joinValues (valuesOf (ascii "content-length") fields) with
  | none => rfl
  | some text =>
    by_cases ht : text = []
    · simp [ht, hnil]
    · simp [ht]

theorem digit_facts {c : UInt8} (h : isDigit c = true) : isSpace c = false ∧ c ≠ 45 ∧ c ≠ 43 := by
  revert c
  decide +kernel

theorem stoull_digits {d rest : Bytes} (hne : d ≠ []) (hd : ∀ c ∈ d, isDigit c = true)
    (hrest : ∀ c ∈ rest.head?, isDigit c = false) :
    stoull (d ++ rest) = if digitsValue d < 2 ^ 64 then some (digitsValue d) else none := by
  have htake : (d ++ rest).takeWhile isDigit = d := by
    rw [List.takeWhile_append_of_pos hd]
    cases rest with
    | nil => simp
    | cons c rest => simp [hrest c rfl]
  cases d with
  | nil => exact absurd rfl hne
  | cons c d =>
    obtain ⟨hspace, hminus, hplus⟩ := digit_facts (hd c (by simp))
    have hdrop : (c :: d ++ rest).dropWhile isSpace = c :: d ++ rest := by
      simp [hspace]
    have hhead : (c :: d ++ rest).head? = some c := rfl
    have hm : (some c == some (45 : UInt8)) = false := by simp [hminus]
    have hp : (some c == some (43 : UInt8)) = false := by simp [hplus]
    simp only [stoull, hdrop, hhead, hm, hp, Bool.or_self, Bool.false_eq_true, if_false, htake,
      List.cons_ne_nil]
    split_ifs <;> first | rfl | omega

theorem stoull_no_digit {s : Bytes} (h : ∀ c ∈ s, isDigit c = false) : stoull s = none := by
  have htake : ∀ t : Bytes, t ⊆ s → t.takeWhile isDigit = [] := by
    intro t ht
    cases t with
    | nil => rfl
    | cons c t => simp [h c (ht (by simp))]
  have hdrop : s.dropWhile isSpace ⊆ s := (List.dropWhile_sublist _).subset
  have hsigned : ∀ b : Bool,
      (if b then (s.dropWhile isSpace).tail else s.dropWhile isSpace) ⊆ s := by
    intro b
    cases b with
    | true => exact fun c hc => hdrop (List.tail_subset _ hc)
    | false => exact hdrop
  simp only [stoull, htake _ (hsigned _), if_true]

/-- All values are the same non-empty string of digits. -/
def Uniform (values : List Bytes) (d : Bytes) : Prop :=
  values ≠ [] ∧ (∀ v ∈ values, v = d) ∧ d ≠ [] ∧ ∀ c ∈ d, isDigit c = true

/-- Values that `stoull` refuses: no digit in any of them, or one digit string beyond 64 bits. -/
def Unreadable (values : List Bytes) : Prop :=
  (∀ v ∈ values, ∀ c ∈ v, isDigit c = false) ∨ ∃ d, Uniform values d ∧ 2 ^ 64 ≤ digitsValue d

theorem separator_eq : ascii ", " = [44, 32] := by decide

theorem stoull_uniform {values : List Bytes} {d : Bytes} (h : Uniform values d) :
    (joinValues values).bind stoull =
      if digitsValue d < 2 ^ 64 then some (digitsValue d) else none := by
  obtain ⟨hne, hall, hd, hdigits⟩ := h
  cases values with
  | nil => exact absurd rfl hne
  | cons v vs =>
    obtain rfl := hall v (by simp)
    refine stoull_digits hd hdigits ?_
    cases vs with
    | nil => simp
    | cons w vs => simp [separator_eq, isDigit]

theorem stoull_unreadable {values : List Bytes} (h : Unreadable values) :
    (joinValues values).bind stoull = none := by
  rcases h with hnone | ⟨d, hd, hbig⟩
  · cases values with
    | nil => rfl
    | cons v vs =>
      have hsep : ∀ c ∈ ascii ", ", isDigit c = false := by simp [separator_eq, isDigit]
      refine stoull_no_digit fun c hc => ?_
      rw [List.mem_append, List.mem_flatMap] at hc
      rcases hc with hc | ⟨w, hw, hc⟩
      · exact hnone v (by simp) c hc
      · rcases List.mem_append.mp hc with hc | hc
        · exact hsep c hc
        · exact hnone w (by simp [hw]) c hc
  · rw [stoull_uniform hd, if_neg (not_lt.mpr hbig)]

/-- The request line and the header lines of `s`, up to the blank line. -/
structure HeaderSection (s line : Bytes) (fields : List Bytes) (rest : Bytes) : Prop where
  text : s = line ++ (crlf ++ (joinLines fields ++ (crlf ++ rest)))
  unbroken : Unbroken line
  requestLine : ∃ m target v, RequestLine line m target v
  fields_ok : ∀ f ∈ fields, FieldLine f

/-- A header section ends at its first blank line. -/
theorem joinLines_unique {fs gs : List Bytes} {x y : Bytes} (hf : ∀ f ∈ fs, FieldLine f)
    (hg : ∀ g ∈ gs, FieldLine g) (h : joinLines fs ++ (crlf ++ x) = joinLines gs ++ (crlf ++ y)) :
    fs = gs ∧ x = y := by
  induction fs generalizing gs with
  | nil =>
    cases gs with
    | nil => exact ⟨rfl, by simpa using h⟩
    | cons g gs =>
      obtain ⟨hne, hun, -⟩ := hg g (by simp)
      obtain ⟨hnil, -⟩ := cut_unique cr_ne_lf unbroken_nil hun (by simpa [crlf] using h)
      exact absurd hnil.symm hne
  | cons f fs ih =>
    obtain ⟨hne, hun, -⟩ := hf f (by simp)
    cases gs with
    | nil =>
      obtain ⟨hnil, -⟩ := cut_unique cr_ne_lf hun unbroken_nil (by simpa [crlf] using h)
      exact absurd hnil hne
    | cons g gs =>
      obtain ⟨-, hung, -⟩ := hg g (by simp)
      obtain ⟨rfl, htail⟩ := cut_unique cr_ne_lf hun hung (by simpa [crlf] using h)
      obtain ⟨rfl, hxy⟩ := ih (fun f hf' => hf f (by simp [hf'])) (fun g hg' => hg g (by simp [hg'])) htail
      exact ⟨rfl, hxy⟩

theorem message_section {s line line' body rest rest' : Bytes} {fields fields' : List Bytes}
    (h : HeaderSection s line fields rest) (hm : Message s line' fields' body rest') :
    fields = fields' ∧ rest = body ++ rest' := by
  have htext : s = line' ++ (crlf ++ (joinLines fields' ++ (crlf ++ (body ++ rest')))) := by
    simpa only [List.append_assoc] using hm.text
  obtain ⟨rfl, hlines⟩ := cut_unique cr_ne_lf h.unbroken hm.unbroken
    (by simpa [crlf] using h.text.symm.trans htext)
  exact joinLines_unique h.fields_ok hm.fields_ok hlines

/-- After a header section the parser waits for as many bytes as its table gives, and takes
them for the body. -/
theorem section_complete (initial : ℕ) {s line rest : Bytes} {fields : List Bytes}
    (h : HeaderSection s line fields rest) :
    let r := parseRequest (arrive (fresh initial) s)
    let n := bodyLength (headerTable fields)
    (r.1 = true ↔ n ≤ rest.length) ∧ (n ≤ rest.length →
      r.2.request.body = rest.take n ∧ r.2.buffer.readable = rest.drop n) := by
  intro r n
  obtain ⟨hret, hview⟩ := parseRequest_fresh initial s
  have hall : n ≤ rest.length → ∃ p' m target v, parseStream ⟨{}, s, {}⟩ =
      (true, ⟨p', rest.drop n, messageRequest m target v fields (rest.take n)⟩) := by
    intro hle
    obtain ⟨m, target, v, hline⟩ := h.requestLine
    have hm : Message s line fields (rest.take n) (rest.drop n) :=
      ⟨by simp [h.text], h.unbroken, h.requestLine, h.fields_ok, List.length_take_of_le hle⟩
    obtain ⟨p', -, hrun⟩ := message_complete hm hline {}
    exact ⟨p', m, target, v, hrun⟩
  refine ⟨⟨fun hdone => ?_, fun hle => ?_⟩, fun hle => ?_⟩
  · obtain ⟨line', fields', body, rest', hm⟩ := message_of_complete (hret.symm.trans hdone)
    obtain ⟨rfl, rfl⟩ := message_section h hm
    rw [List.length_append, hm.body_length]
    exact Nat.le_add_right _ _
  · obtain ⟨p', m, target, v, hrun⟩ := hall hle
    exact hret.trans (by rw [hrun])
  · obtain ⟨p', m, target, v, hrun⟩ := hall hle
    rw [hrun] at hview
    exact ⟨congrArg (fun z => z.request.body) hview, congrArg StreamState.bytes hview⟩

/-- Reading of the Content-Length lines. Lines that all carry one digit string below 2^64
give the body that size; where `stoull` refuses the value the body is empty and the request
completes at the blank line; and an error is only ever reported for a line that breaks the
grammar. -/
theorem contentLength_framing (initial : ℕ) (s : Bytes) :
    let r := parseRequest (arrive (fresh initial) s)
    (∀ line fields rest, HeaderSection s line fields rest →
      (∀ d, Uniform (lengthValues fields) d → digitsValue d < 2 ^ 64 →
        (r.1 = true ↔ digitsValue d ≤ rest.length) ∧
        (r.1 = true → r.2.request.body.length = digitsValue d)) ∧
      (Unreadable (lengthValues fields) →
        r.1 = true ∧ r.2.request.body = [] ∧ r.2.buffer.readable = rest)) ∧
    (r.2.parser.hasError = true ↔ Violation s) := by
  intro r
  refine ⟨fun line fields rest h => ⟨fun d hd hlt => ?_, fun hun => ?_⟩, ?_⟩
  · obtain ⟨hret, hbody⟩ := section_complete initial h
    have hn : bodyLength (headerTable fields) = digitsValue d := by
      rw [bodyLength_eq, stoull_uniform hd, if_pos hlt]
      rfl
    rw [hn] at hret hbody
    refine ⟨hret, fun hdone => ?_⟩
    have hle := hret.mp hdone
    rw [(hbody hle).1]
    exact List.length_take_of_le hle
  · obtain ⟨hret, hbody⟩ := section_complete initial h
    have hn : bodyLength (headerTable fields) = 0 := by
      rw [bodyLength_eq, stoull_unreadable hun]
      rfl
    rw [hn] at hret hbody
    exact ⟨hret.mpr (Nat.zero_le _), hbody (Nat.zero_le _)⟩
  · obtain ⟨-, hview⟩ := parseRequest_fresh initial s
    have herr : r.2.parser = (parseStream ⟨{}, s, {}⟩).2.parser := congrArg StreamState.parser hview
    rw [herr]
    exact ⟨violation_of_error rfl, fun h => (violation_error h {}).2⟩

/-- Strict reading: a Content-Length is one string of digits below 2^64, repeated or not, and
the size of the body; anything else is an error. -/
def StrictLength (initial : ℕ) (s : Bytes) : Prop :=
  let r := parseRequest (arrive (fresh initial) s)
  ∀ line fields rest, HeaderSection s line fields rest → lengthValues fields ≠ [] →
    (r.1 = true → ∃ d, Uniform (lengthValues fields) d ∧ digitsValue d < 2 ^ 64 ∧
      r.2.request.body.length = digitsValue d) ∧
    ((¬ ∃ d, Uniform (lengthValues fields) d ∧ digitsValue d < 2 ^ 64) →
      r.2.parser.hasError = true)

/-- A value that is no number: the request completes with an empty body and no error. -/
theorem contentLength_word_accepted : ¬ ∀ initial s, StrictLength initial s := by
  intro h
  let line := ascii "GET / HTTP/1.1"
  let field := ascii "Content-Length: abc"
  let s := line ++ (crlf ++ (joinLines [field] ++ (crlf ++ [])))
  have hline : RequestLine line .get (ascii "/") .http11 :=
    ⟨ascii "GET", ascii "HTTP/1.1", [], by decide, by decide, by decide⟩
  have hun : ∀ l ∈ [line, field], Unbroken l := by
    unfold Unbroken
    decide
  have hfield : HeaderLine field :=
    headerLine_iff.mpr ⟨14, by decide, by decide⟩
  have hsec : HeaderSection s line [field] [] :=
    ⟨rfl, hun line (by simp), ⟨_, _, _, hline⟩, by
      simpa using ⟨by decide, hun field (by simp), hfield⟩⟩
  have hvalues : lengthValues [field] = [ascii "abc"] := by decide
  obtain ⟨hgood, -⟩ := h 64 s line [field] [] hsec (by simp [hvalues])
  have hdone : (parseRequest (arrive (fresh 64) s)).1 = true := by decide
  obtain ⟨d, ⟨-, hall, -, hdigits⟩, -⟩ := hgood hdone
  obtain rfl := hall (ascii "abc") (by simp [hvalues])
  exact absurd (hdigits 97 (by decide)) (by decide)

end TzzeroHttp.ParserContentLength
