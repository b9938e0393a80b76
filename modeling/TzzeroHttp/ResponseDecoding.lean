import TzzeroHttp.ResponseConnection

/-! Reading a serialised response back. The bytes are cut at the first double CR LF, as a
client cuts them: the lines before it are the status line and the header lines, and the rest
is the body. -/
namespace TzzeroHttp.ResponseDecoding
open ByteText HeaderMap ListSearch ResponseModel ParserModel ResponseConnection

/-- Names that are not empty, without colon, CR or LF, and values without CR or LF. -/
def Clean (h : Headers) : Prop :=
  ∀ f ∈ h.entries, f.1 ≠ [] ∧ (∀ c ∈ f.1, c ≠ colon ∧ c ≠ cr ∧ c ≠ lf) ∧ ∀ c ∈ f.2, c ≠ cr ∧ c ≠ lf

def ownTexts (r : HttpResponse) (date : Bytes) : List Bytes :=
  (if r.closeConnection then ascii "connection: close" else ascii "connection: keep-alive") ::
    ((if r.headers.lookup (ascii "server") = none then [ascii "server: TZZeroHTTP/1.0"] else []) ++
      if r.headers.lookup (ascii "date") = none then [ascii "date: " ++ date] else [])

theorem ownFields_texts (r : HttpResponse) (date : Bytes) :
    (ownFields r date).map fieldText = ownTexts r date := by
  have hserver : r.hasHeader (ascii "server") = true ↔ ¬ r.headers.lookup (ascii "server") = none := by
    rw [← ne_eq, Option.ne_none_iff_isSome]
    rfl
  have hdate : r.hasHeader (ascii "date") = true ↔ ¬ r.headers.lookup (ascii "date") = none := by
    rw [← ne_eq, Option.ne_none_iff_isSome]
    rfl
  have hclose : fieldText ⟨connection, if r.closeConnection then ascii "close" else ascii "keep-alive"⟩ =
      if r.closeConnection then ascii "connection: close" else ascii "connection: keep-alive" := by
    split_ifs <;> decide
  have hown : fieldText ⟨ascii "server", ascii "TZZeroHTTP/1.0"⟩ = ascii "server: TZZeroHTTP/1.0" := by
    decide
  have hnow : fieldText ⟨ascii "date", date⟩ = ascii "date: " ++ date := rfl
  unfold ownFields ownTexts
  simp only [hserver, hdate, ite_not, List.map_cons, List.map_append, hclose]
  split_ifs <;> simp [hown, hnow]

theorem ownFields_unbroken (r : HttpResponse) {date : Bytes} (hdate : cr ∉ date) :
    ∀ f ∈ ownFields r date, cr ∉ f.1 ∧ cr ∉ f.2 := by
  have hconnection : cr ∉ connection := by decide
  have hflag : cr ∉ if r.closeConnection then ascii "close" else ascii "keep-alive" := by
    split_ifs <;> decide
  have hserver : cr ∉ ascii "server" ∧ cr ∉ ascii "TZZeroHTTP/1.0" := by decide
  have hname : cr ∉ ascii "date" := by decide
  exact forall_mem_ownFields ⟨hconnection, hflag⟩ hserver ⟨hname, hdate⟩

/-- Cutting the bytes of a response at the first double CR LF, and what is before it at each
CR LF, gives the status line, one line `name: value` for each entry, the connection line and,
where the table has no such entry, a server and a date line; the rest is the body. Names end at
the first colon of their line. Bytes that are already in the buffer stay in front. -/
theorem response_decodes (r : HttpResponse) (order : List Field) (date buffer : Bytes)
    (hclean : Clean r.headers) (horder : order.Perm r.headers.entries)
    (hdate : ∀ c ∈ date, c ≠ cr ∧ c ≠ lf) :
    let out := toBuffer r order date
    appendToBuffer r order date buffer = buffer ++ out ∧
      (∃ k, search (crlf ++ crlf) out = some k ∧
        lines (out.take k) = statusText r :: (order.map fieldText ++ ownTexts r date) ∧
        out.drop (k + 4) = r.body) ∧
      ∀ f ∈ order, (fieldText f).idxOf? colon = some f.1.length := by
  intro out
  have horderClean : ∀ f ∈ order, cr ∉ f.1 ∧ cr ∉ f.2 := by
    intro f hf
    obtain ⟨-, hname, hvalue⟩ := hclean f (horder.mem_iff.mp hf)
    exact ⟨fun hm => (hname cr hm).2.1 rfl, fun hm => (hvalue cr hm).1 rfl⟩
  have hown := ownFields_unbroken r fun hm => (hdate cr hm).1 rfl
  have hlines : lines out = (statusText r :: (order.map fieldText ++ ownTexts r date)) ++
      [] :: lines r.body := by
    rw [lines_toBuffer, flatMap_fieldLines horderClean, flatMap_fieldLines hown, ownFields_texts]
    simp
  have hfull : [] ∉ statusText r :: (order.map fieldText ++ ownTexts r date) := by
    rw [← ownFields_texts, ← List.map_append, List.mem_cons, List.mem_map]
    rintro (hstatus | ⟨f, -, hf⟩)
    · exact absurd hstatus (by simp [statusText, ascii])
    · exact fieldText_ne_nil f hf
  refine ⟨?_, ?_, ?_⟩
  · rw [appendToBuffer_eq, ← toBuffer_eq]
  · obtain ⟨us, vs, heq, hsearch, hus, hvs⟩ :=
      search_blank cr_ne_lf hlines (by simp) (pieces_ne_nil _) hfull
    have hbody : vs = r.body := pieces_injective hvs
    refine ⟨us.length, hsearch, ?_, ?_⟩
    · rw [heq, List.take_left]
      exact hus
    · rw [heq, ← List.drop_drop, List.drop_left, hbody]
      rfl
  · intro f hf
    obtain ⟨-, hname, -⟩ := hclean f (horder.mem_iff.mp hf)
    rw [fieldText_eq]
    exact idxOf?_cut fun hm => (hname colon hm).1 rfl

/-- A body that looks like the end of a header section, and a table with a server entry. -/
def blankBodyResponse : HttpResponse :=
  (({} : HttpResponse).setHeader (ascii "Server") (ascii "a: b")).setBody (crlf ++ crlf)

theorem response_decodes_blank_body :
    let out := toBuffer blankBodyResponse blankBodyResponse.headers.entries (ascii "now")
    Clean blankBodyResponse.headers ∧ ∃ k, search (crlf ++ crlf) out = some k ∧
      lines (out.take k) = [ascii "HTTP/1.1 200 OK", ascii "content-length: 4", ascii "server: a: b",
        ascii "connection: keep-alive", ascii "date: now"] ∧
      out.drop (k + 4) = crlf ++ crlf := by
  intro out
  have hclean : Clean blankBodyResponse.headers := by
    have hall : blankBodyResponse.headers.entries.all (fun f => !f.1.isEmpty &&
        (f.1.all fun c => c != colon && c != cr && c != lf) && f.2.all fun c => c != cr && c != lf) =
        true := by decide
    simpa [Clean, List.all_eq_true, and_assoc] using hall
  have hdate : ∀ c ∈ ascii "now", c ≠ cr ∧ c ≠ lf := by
    have hall : (ascii "now").all (fun c => c != cr && c != lf) = true := by decide
    simpa [List.all_eq_true] using hall
  obtain ⟨-, ⟨k, hk, hlines, hbody⟩, -⟩ := response_decodes blankBodyResponse
    blankBodyResponse.headers.entries (ascii "now") [] hclean (List.Perm.refl _) hdate
  refine ⟨hclean, k, hk, hlines.trans (by decide), hbody.trans (by decide)⟩

end TzzeroHttp.ResponseDecoding
