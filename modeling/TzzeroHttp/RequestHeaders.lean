import TzzeroHttp.ParserContentLength

/-! The headers of a request as the lines give them: the values of one field are joined in the order
of their lines, whatever the case of the names and whatever lines of other fields stand between. -/
namespace TzzeroHttp.RequestHeaders
open ByteText HeaderMap RequestModel ParserModel ParserLines ParserContentLength ParserGrammar ListSearch

/-- `parse_header_line` on one line after the other, up to a line it refuses. -/
def applyLines (q : HttpRequest) : List Bytes → Option HttpRequest
  | [] => some q
  | line :: lines =>
    let r := parseHeaderLine line q
    if r.1 then applyLines r.2 lines else none

def fieldName (line : Bytes) : Bytes := trimLeft isBlank (trimRight isBlank (line.takeWhile (· != colon)))

/-- What stands behind the first colon, without the blanks in front and the blanks and line ends
behind it. -/
def fieldValue (line : Bytes) : Bytes :=
  trimLeft isBlank (trimRight isBlankOrEol (line.dropWhile (· != colon)).tail)

/-- Equal up to ASCII case. -/
def SameName (a b : Bytes) : Prop := lower a = lower b

instance (a b : Bytes) : Decidable (SameName a b) := inferInstanceAs (Decidable (_ = _))

def linesOf (f : Bytes) (lines : List Bytes) : List Bytes :=
  lines.filter fun line => SameName (fieldName line) f

def Reordered : List Bytes → List Bytes → Prop := Relation.ReflTransGen fun lines lines' =>
  ∃ front x y back, lines = front ++ x :: y :: back ∧ lines' = front ++ y :: x :: back ∧
    ¬ SameName (fieldName x) (fieldName y)

def Recased : List Bytes → List Bytes → Prop := List.Forall₂ fun line line' =>
  SameName (fieldName line) (fieldName line') ∧ fieldValue line = fieldValue line'

theorem parts_of_idxOf? {line : Bytes} {i : ℕ} (h : line.idxOf? colon = some i) :
    headerField line i = fieldName line ∧ headerValue line i = fieldValue line := by
  obtain ⟨hcut, hfree, -⟩ := idxOf?_eq_some_cut h
  have hfront : ∀ c ∈ line.take i, (c != colon) = true := fun c hc => by
    have hne : c ≠ colon := fun he => hfree (by rwa [he] at hc)
    simpa using hne
  have htake : line.takeWhile (· != colon) = line.take i := by
    conv_lhs => rw [hcut]
    rw [List.takeWhile_append_of_pos hfront]
    simp
  have hdrop : line.dropWhile (· != colon) = colon :: line.drop (i + 1) := by
    conv_lhs => rw [hcut]
    rw [List.dropWhile_append_of_pos hfront]
    simp
  exact ⟨by rw [fieldName, htake, headerField], by rw [fieldValue, hdrop, headerValue, List.tail_cons]⟩

/-- The lines are applied exactly if each is a header line; they are then what the table holds. -/
theorem applyLines_eq_some {q q' : HttpRequest} {lines : List Bytes} :
    applyLines q lines = some q' ↔
      (∀ line ∈ lines, HeaderLine line) ∧ q' = { q with headers := lines.foldl addLine q.headers } := by
  induction lines generalizing q with
  | nil =>
    simp only [applyLines, List.foldl_nil, Option.some.injEq, List.not_mem_nil, false_implies,
      implies_true, true_and]
    exact eq_comm
  | cons line lines ih =>
    by_cases hline : HeaderLine line
    · simp only [applyLines, parseHeaderLine_ok hline, if_true, ih, List.mem_cons, forall_eq_or_imp,
        hline, true_and, List.foldl_cons]
    · simp [applyLines, parseHeaderLine_bad hline, hline]

theorem valuesOf_eq {lines : List Bytes} (h : ∀ line ∈ lines, HeaderLine line) (f : Bytes) :
    valuesOf (lower f) lines = (linesOf f lines).map fieldValue := by
  induction lines with
  | nil => rfl
  | cons line lines ih =>
    obtain ⟨i, hi, -⟩ := headerLine_iff.mp (h line (by simp))
    obtain ⟨hname, hvalue⟩ := parts_of_idxOf? hi
    have hrest := ih fun l hl => h l (by simp [hl])
    unfold valuesOf linesOf at hrest ⊢
    by_cases hsame : SameName (fieldName line) f
    · have heq : lower (fieldName line) = lower f := hsame
      simp [hi, hname, hvalue, hsame, heq, hrest]
    · have hne : ¬ lower (fieldName line) = lower f := hsame
      simp [hi, hname, hsame, hne, hrest]

theorem intercalate_cons (sep v : Bytes) (vs : List Bytes) :
    sep.intercalate (v :: vs) = v ++ vs.flatMap (sep ++ ·) := by
  induction vs generalizing v with
  | nil => simp
  | cons w vs ih => rw [List.intercalate_cons_cons, ih, List.flatMap_cons, List.append_assoc, List.append_assoc]

theorem joinValues_eq (vs : List Bytes) :
    joinValues vs = if vs = [] then none else some ((ascii ", ").intercalate vs) := by
  cases vs with
  | nil => rfl
  | cons v vs => simp [joinValues, intercalate_cons]

variable {lines lines' : List Bytes} {q q' : HttpRequest}

theorem lookup_applyLines (h : applyLines {} lines = some q) (f : Bytes) :
    q.headers.lookup (lower f) = joinValues ((linesOf f lines).map fieldValue) := by
  obtain ⟨hlines, rfl⟩ := applyLines_eq_some.mp h
  have htable : lines.foldl addLine ({} : HttpRequest).headers = headerTable lines := rfl
  rw [htable, lookup_headerTable, valuesOf_eq hlines]

theorem linesOf_congr {f g : Bytes} (h : SameName f g) : linesOf f lines = linesOf g lines := by
  refine List.filter_congr fun line _ => decide_eq_decide.mpr ?_
  exact ⟨fun hline => hline.trans h, fun hline => hline.trans h.symm⟩

theorem linesOf_exchange (f : Bytes) {x y : Bytes} (h : ¬ SameName (fieldName x) (fieldName y))
    (front back : List Bytes) :
    linesOf f (front ++ x :: y :: back) = linesOf f (front ++ y :: x :: back) := by
  unfold linesOf
  by_cases hx : SameName (fieldName x) f
  · have hy : ¬ SameName (fieldName y) f := fun hy => h (hx.trans hy.symm)
    simp [hx, hy]
  · simp [hx, List.filter_cons]

theorem linesOf_reordered (f : Bytes) (h : Reordered lines lines') : linesOf f lines' = linesOf f lines := by
  induction h with
  | refl => rfl
  | tail _ hstep ih =>
    obtain ⟨front, x, y, back, rfl, rfl, hxy⟩ := hstep
    rw [← ih, linesOf_exchange f hxy]

theorem valuesOf_recased (f : Bytes) (h : Recased lines lines') :
    (linesOf f lines').map fieldValue = (linesOf f lines).map fieldValue := by
  induction h with
  | nil => rfl
  | @cons line line' lines lines' hline _ ih =>
    obtain ⟨hname, hvalue⟩ := hline
    have hiff : SameName (fieldName line') f ↔ SameName (fieldName line) f :=
      ⟨fun h => hname.trans h, fun h => hname.symm.trans h⟩
    unfold linesOf at ih ⊢
    by_cases hf : SameName (fieldName line) f
    · simp [hiff.mpr hf, hf, hvalue, ih]
    · simp [mt hiff.mp hf, hf, ih]

theorem hasHeader_applyLines (h : applyLines {} lines = some q) (f : Bytes) :
    q.hasHeader f = decide (linesOf f lines ≠ []) := by
  rw [HttpRequest.hasHeader, Headers.has, lookup_applyLines h, joinValues_eq]
  by_cases hnil : linesOf f lines = []
  · simp [hnil]
  · simp [hnil]

theorem getHeader_applyLines (h : applyLines {} lines = some q) (f : Bytes) :
    q.getHeader f = (ascii ", ").intercalate ((linesOf f lines).map fieldValue) := by
  rw [HttpRequest.getHeader, Headers.get, lookup_applyLines h, joinValues_eq]
  by_cases hnil : linesOf f lines = []
  · simp [hnil]
  · simp [hnil]

/-- Header lines applied to an empty request: a field is there exactly if some line has its name up
to case, and holds the values of exactly these lines in order, joined with a comma and a space. An
exchange of lines with different names, the case of the names and that of the field asked for make no
difference. -/
theorem headers_joined (lines : List Bytes) (q : HttpRequest) (h : applyLines {} lines = some q)
    (f : Bytes) :
    (q.hasHeader f = true ↔ ∃ line ∈ lines, SameName (fieldName line) f) ∧
      (q.hasHeader f = true →
        q.getHeader f = (ascii ", ").intercalate ((linesOf f lines).map fieldValue)) ∧
      ∀ lines' q' f', Reordered lines lines' ∨ Recased lines lines' → applyLines {} lines' = some q' →
        SameName f f' → q'.hasHeader f' = q.hasHeader f ∧ q'.getHeader f' = q.getHeader f := by
  refine ⟨?_, fun _ => getHeader_applyLines h f, fun lines' q' f' hlines h' hf => ?_⟩
  · rw [hasHeader_applyLines h]
    simp [linesOf, List.filter_eq_nil_iff]
  · have hvalues : (linesOf f' lines').map fieldValue = (linesOf f lines).map fieldValue := by
      rw [← linesOf_congr hf]
      rcases hlines with hreordered | hrecased
      · rw [linesOf_reordered f hreordered]
      · exact valuesOf_recased f hrecased
    have hnil : linesOf f' lines' = [] ↔ linesOf f lines = [] := by
      rw [← List.map_eq_nil_iff (f := fieldValue), hvalues, List.map_eq_nil_iff]
    rw [hasHeader_applyLines h', hasHeader_applyLines h, getHeader_applyLines h',
      getHeader_applyLines h, hvalues]
    simp [hnil]

/-- Two values of one field, one of them empty, in lines that differ in case, with another line
between them and with it moved behind. -/
theorem headers_joined_cookies :
    let lines := [ascii "Cookie: a=1:2", ascii "Host: x", ascii "cOOkie:"]
    let lines' := [ascii "Cookie: a=1:2", ascii "cOOkie:", ascii "Host: x"]
    ∃ q q', applyLines {} lines = some q ∧ applyLines {} lines' = some q' ∧
      q.getHeader (ascii "cookie") = ascii "a=1:2, " ∧ q'.getHeader (ascii "COOKIE") = ascii "a=1:2, " := by
  intro lines lines'
  have hsome : (applyLines {} lines).isSome ∧ (applyLines {} lines').isSome := by decide
  obtain ⟨q, hq⟩ := Option.isSome_iff_exists.mp hsome.1
  obtain ⟨q', hq'⟩ := Option.isSome_iff_exists.mp hsome.2
  obtain ⟨hhas, hget, hsame⟩ := headers_joined lines q hq (ascii "cookie")
  have hreordered : Reordered lines lines' :=
    .single ⟨[ascii "Cookie: a=1:2"], ascii "Host: x", ascii "cOOkie:", [], rfl, rfl, by decide⟩
  have hvalue : q.getHeader (ascii "cookie") = ascii "a=1:2, " :=
    (hget (hhas.mpr ⟨ascii "Cookie: a=1:2", by decide, by decide⟩)).trans (by decide)
  have hother := (hsame lines' q' (ascii "COOKIE") (.inl hreordered) hq' (by decide)).2
  exact ⟨q, q', hq, hq', hvalue, hother.trans hvalue⟩

end TzzeroHttp.RequestHeaders
