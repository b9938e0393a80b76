import TzzeroHttp.ParserStream

/-! The grammar of the two kinds of lines, stated without reference to how the parser
reads them, and the parser's line functions measured against it. -/
namespace TzzeroHttp.ParserLines
open ByteText HeaderMap RequestModel ParserModel ParserStream ListSearch

def words (s : Bytes) : List Bytes := (s.splitOnP isSpace).filter (· ≠ [])

def methodNames : List (Bytes × HttpMethod) :=
  [(ascii "GET", .get), (ascii "POST", .post), (ascii "PUT", .put), (ascii "DELETE", .delete),
    (ascii "HEAD", .head), (ascii "OPTIONS", .options), (ascii "PATCH", .patch),
    (ascii "CONNECT", .connect), (ascii "TRACE", .trace)]

def versionNames : List (Bytes × HttpVersion) :=
  [(ascii "HTTP/1.0", .http10), (ascii "HTTP/1.1", .http11), (ascii "HTTP/2.0", .http20)]

/-- At least three tokens: a method name, a target and a version name. -/
def RequestLine (line : Bytes) (m : HttpMethod) (target : Bytes) (v : HttpVersion) : Prop :=
  ∃ name version rest, words line = name :: target :: version :: rest ∧
    (name, m) ∈ methodNames ∧ (version, v) ∈ versionNames

/-- The target is split at its first question mark. -/
def TargetSplit (target path query : Bytes) : Prop :=
  (question ∉ target ∧ path = target ∧ query = []) ∨
  (target = path ++ question :: query ∧ question ∉ path)

/-- A colon, and in front of the first one something that is not a space or tab. -/
def HeaderLine (line : Bytes) : Prop :=
  ∃ name value, line = name ++ colon :: value ∧ colon ∉ name ∧ ∃ c ∈ name, isBlank c = false

/-- What a header line adds to the table: trimmed name and value, cut at the first colon. -/
def addLine (h : Headers) (line : Bytes) : Headers :=
  match line.idxOf? colon with
  | some i => h.add (headerField line i) (headerValue line i)
  | none => h

theorem words_nil : words [] = [] := rfl

theorem words_space {c : UInt8} {s : Bytes} (h : isSpace c = true) : words (c :: s) = words s := by
  simp [words, List.splitOnP_cons_eq_if_modifyHead, h]

theorem words_dropWhile (s : Bytes) : words (s.dropWhile isSpace) = words s := by
  induction s with
  | nil => rfl
  | cons c s ih =>
    rw [List.dropWhile_cons]
    split_ifs with h
    · rw [ih, words_space h]
    · rfl

theorem words_word {w rest : Bytes} (hne : w ≠ []) (hw : ∀ c ∈ w, isSpace c = false)
    (hrest : ∀ c ∈ rest.head?, isSpace c = true) : words (w ++ rest) = w :: words rest := by
  cases rest with
  | nil => simp [words, List.splitOnP_eq_singleton hw, hne]
  | cons c rest =>
    have hc : isSpace c = true := hrest c rfl
    rw [words_space hc]
    simp [words, List.splitOnP_append_cons_of_forall_mem hw c hc, hne]

/-- `iss >> word` reads the first token and leaves the others. -/
theorem words_eq_extractWord (s : Bytes) :
    words s = match extractWord s with
      | none => []
      | some (w, rest) => w :: words rest := by
  rw [← words_dropWhile]
  simp only [extractWord]
  generalize ht : s.dropWhile isSpace = t
  have hhead : ∀ c ∈ t.head?, isSpace c = false := by
    intro c hc
    have hnot := List.head?_dropWhile_not isSpace s
    rw [ht, hc] at hnot
    exact hnot
  have hsplit : t.takeWhile (fun c => !isSpace c) ++ t.dropWhile (fun c => !isSpace c) = t :=
    List.takeWhile_append_dropWhile
  cases hw : t.takeWhile (fun c => !isSpace c) with
  | nil =>
    cases t with
    | nil => rfl
    | cons c t =>
      have hc : isSpace c = false := hhead c rfl
      simp [hc] at hw
  | cons c w =>
    rw [hw] at hsplit
    conv_lhs => rw [← hsplit]
    refine words_word (by simp) ?_ ?_
    · intro d hd
      rw [← hw] at hd
      simpa using List.mem_takeWhile_imp hd
    · intro d hd
      have := List.head?_dropWhile_not (fun c => !isSpace c) t
      rw [hd] at this
      simpa using this

theorem extractThree_eq_some {line a b c : Bytes} :
    extractThree line = some (a, b, c) ↔ ∃ rest, words line = a :: b :: c :: rest := by
  unfold extractThree
  rw [words_eq_extractWord line]
  cases h₁ : extractWord line with
  | none => simp
  | some wr₁ =>
    obtain ⟨w₁, r₁⟩ := wr₁
    simp only [Option.bind_some, words_eq_extractWord r₁]
    cases h₂ : extractWord r₁ with
    | none => simp
    | some wr₂ =>
      obtain ⟨w₂, r₂⟩ := wr₂
      simp only [Option.bind_some, words_eq_extractWord r₂]
      cases h₃ : extractWord r₂ with
      | none => simp
      | some wr₃ =>
        obtain ⟨w₃, r₃⟩ := wr₃
        simp only [Option.map_some, Option.some.injEq, Prod.mk.injEq, List.cons.injEq]
        constructor
        · rintro ⟨rfl, rfl, rfl⟩
          exact ⟨_, rfl, rfl, rfl, rfl⟩
        · rintro ⟨_, rfl, rfl, rfl, -⟩
          exact ⟨rfl, rfl, rfl⟩

/-- One comparison of a chain that looks a name up: the entry found is that of the table. -/
theorem mem_of_ite {β : Type*} {name a : Bytes} {m other default : β} {rest : List (Bytes × β)}
    (h : other ≠ default → (name, other) ∈ rest) :
    (if name = a then m else other) ≠ default →
      (name, if name = a then m else other) ∈ (a, m) :: rest := by
  intro hne
  by_cases ha : name = a
  · simp [ha]
  · rw [if_neg ha] at hne ⊢
    exact List.mem_cons_of_mem _ (h hne)

theorem mem_methodNames {name : Bytes} {m : HttpMethod} :
    (name, m) ∈ methodNames ↔ stringToMethod name = m ∧ m ≠ .invalid := by
  constructor
  · intro h
    simp only [methodNames, List.mem_cons, Prod.mk.injEq, List.not_mem_nil, or_false] at h
    rcases h with ⟨rfl, rfl⟩ | ⟨rfl, rfl⟩ | ⟨rfl, rfl⟩ | ⟨rfl, rfl⟩ | ⟨rfl, rfl⟩ | ⟨rfl, rfl⟩ |
      ⟨rfl, rfl⟩ | ⟨rfl, rfl⟩ | ⟨rfl, rfl⟩ <;> decide
  · rintro ⟨rfl, hm⟩
    revert hm
    unfold stringToMethod methodNames
    repeat apply mem_of_ite
    exact fun hm => absurd rfl hm

theorem mem_versionNames {name : Bytes} {v : HttpVersion} :
    (name, v) ∈ versionNames ↔ stringToVersion name = v ∧ v ≠ .unknown := by
  constructor
  · intro h
    simp only [versionNames, List.mem_cons, Prod.mk.injEq, List.not_mem_nil, or_false] at h
    rcases h with ⟨rfl, rfl⟩ | ⟨rfl, rfl⟩ | ⟨rfl, rfl⟩ <;> decide
  · rintro ⟨rfl, hv⟩
    revert hv
    unfold stringToVersion versionNames
    repeat apply mem_of_ite
    exact fun hv => absurd rfl hv

theorem parseRequestLine_ok {line target : Bytes} {m : HttpMethod} {v : HttpVersion}
    (h : RequestLine line m target v) (q : HttpRequest) :
    parseRequestLine line q = (true, { setTarget { q with method := m } target with version := v }) := by
  obtain ⟨name, version, rest, hw, hm, hv⟩ := h
  obtain ⟨rfl, hm⟩ := mem_methodNames.mp hm
  obtain ⟨rfl, hv⟩ := mem_versionNames.mp hv
  simp only [parseRequestLine, extractThree_eq_some.mpr ⟨rest, hw⟩, if_neg hm, if_neg hv]

theorem parseRequestLine_bad {line : Bytes} (h : ¬ ∃ m target v, RequestLine line m target v)
    (q : HttpRequest) : (parseRequestLine line q).1 = false := by
  unfold parseRequestLine
  cases he : extractThree line with
  | none => rfl
  | some x =>
    obtain ⟨name, target, version⟩ := x
    obtain ⟨rest, hw⟩ := extractThree_eq_some.mp he
    dsimp only
    split_ifs with hm hv
    · rfl
    · rfl
    · exact absurd ⟨_, target, _, name, version, rest, hw, mem_methodNames.mpr ⟨rfl, hm⟩,
        mem_versionNames.mpr ⟨rfl, hv⟩⟩ h

theorem setTarget_split {q : HttpRequest} (hq : q.query = []) (target : Bytes) :
    TargetSplit target (setTarget q target).path (setTarget q target).query := by
  unfold setTarget
  cases hi : target.idxOf? question with
  | none => exact .inl ⟨List.idxOf?_eq_none_iff.mp hi, rfl, hq⟩
  | some i =>
    obtain ⟨hcut, hfree, -⟩ := idxOf?_eq_some_cut hi
    exact .inr ⟨hcut, hfree⟩

theorem setTarget_headers (q : HttpRequest) (target : Bytes) :
    (setTarget q target).headers = q.headers ∧ (setTarget q target).body = q.body ∧
      (setTarget q target).method = q.method := by
  unfold setTarget
  split <;> exact ⟨rfl, rfl, rfl⟩

theorem parseRequestLine_keeps (line : Bytes) (q : HttpRequest) :
    (parseRequestLine line q).2.parseState = q.parseState ∧
      (parseRequestLine line q).2.headers = q.headers := by
  have htarget : ∀ (q : HttpRequest) target, (setTarget q target).parseState = q.parseState ∧
      (setTarget q target).headers = q.headers := by
    intro q target
    unfold setTarget
    split <;> exact ⟨rfl, rfl⟩
  unfold parseRequestLine
  split
  · exact ⟨rfl, rfl⟩
  · dsimp only
    split_ifs
    · exact ⟨rfl, rfl⟩
    · exact htarget _ _
    · exact htarget _ _

/-- Nothing is left of a string after trimming exactly when it was all blanks. -/
theorem trim_eq_nil {s : Bytes} :
    trimLeft isBlank (trimRight isBlank s) = [] ↔ ∀ c ∈ s, isBlank c = true := by
  simp only [trimLeft, trimRight, List.dropWhile_eq_nil_iff]
  constructor
  · intro h
    by_cases hnil : s.rdropWhile isBlank = []
    · exact List.rdropWhile_eq_nil_iff.mp hnil
    · exact absurd (h _ (List.getLast_mem hnil)) (List.rdropWhile_last_not _ _ hnil)
  · intro h
    simp [List.rdropWhile_eq_nil_iff.mpr h]

theorem headerLine_iff {line : Bytes} :
    HeaderLine line ↔ ∃ i, line.idxOf? colon = some i ∧ headerField line i ≠ [] := by
  constructor
  · rintro ⟨name, value, rfl, hfree, c, hc, hb⟩
    refine ⟨name.length, idxOf?_cut hfree, fun he => ?_⟩
    rw [headerField, List.take_left, trim_eq_nil] at he
    simp [he c hc] at hb
  · rintro ⟨i, hi, hne⟩
    obtain ⟨hcut, hfree, -⟩ := idxOf?_eq_some_cut hi
    refine ⟨line.take i, line.drop (i + 1), hcut, hfree, ?_⟩
    by_contra hall
    push Not at hall
    exact hne (trim_eq_nil.mpr fun c hc => by simpa using hall c hc)

theorem parseHeaderLine_ok {line : Bytes} (h : HeaderLine line) (q : HttpRequest) :
    parseHeaderLine line q = (true, { q with headers := addLine q.headers line }) := by
  obtain ⟨i, hi, hne⟩ := headerLine_iff.mp h
  simp only [parseHeaderLine, addLine, hi, if_neg hne, HttpRequest.addHeader]

theorem parseHeaderLine_bad {line : Bytes} (h : ¬ HeaderLine line) (q : HttpRequest) :
    parseHeaderLine line q = (false, q) := by
  unfold parseHeaderLine
  cases hi : line.idxOf? colon with
  | none => rfl
  | some i =>
    dsimp only
    split_ifs with he
    · rfl
    · exact absurd (headerLine_iff.mpr ⟨i, hi, he⟩) h

/-! What the parser does with one line, case by case. -/

variable {p : HttpParser} {q : HttpRequest} {line : Bytes}

theorem takeLine_request {m : HttpMethod} {target : Bytes} {v : HttpVersion}
    (hq : q.parseState = .requestLine) (h : RequestLine line m target v) :
    takeLine p q line =
      .inl (p, { setTarget { q with method := m } target with version := v, parseState := .headers }) := by
  simp only [takeLine, if_pos hq, parseRequestLine_ok h, if_true]
  rfl

theorem takeLine_request_bad (hq : q.parseState = .requestLine)
    (h : ¬ ∃ m target v, RequestLine line m target v) :
    takeLine p q line = .inr (false, { p with hasError := true }, (parseRequestLine line q).2) := by
  simp [takeLine, hq, parseRequestLine_bad h]

theorem takeLine_header (hq : q.parseState = .headers) (hne : line ≠ []) (h : HeaderLine line) :
    takeLine p q line = .inl (p, { q with headers := addLine q.headers line }) := by
  simp [takeLine, hq, hne, parseHeaderLine_ok h]

theorem takeLine_header_bad (hq : q.parseState = .headers) (hne : line ≠ []) (h : ¬ HeaderLine line) :
    takeLine p q line = .inr (false, { p with hasError := true }, q) := by
  simp [takeLine, hq, hne, parseHeaderLine_bad h]

theorem takeLine_blank_empty (hq : q.parseState = .headers) (hlen : q.getContentLength = 0) :
    takeLine p q [] = .inr (true, { p with contentLength := 0 }, q.setParseState .complete) := by
  simp [takeLine, hq, hlen]

theorem takeLine_blank_body (hq : q.parseState = .headers) (hlen : 0 < q.getContentLength) :
    takeLine p q [] =
      .inl (⟨p.hasError, q.getContentLength, true⟩, q.setParseState .body) := by
  simp [takeLine, hq, hlen]

end TzzeroHttp.ParserLines
