import TzzeroHttp.ResponseModel

/-! When the content-length header of a response is the size of its body. The header is
written once, by the first operation that leaves the body non-empty, and stays until the
response is reset. -/
namespace TzzeroHttp.ResponseLength
open ByteText HeaderMap ResponseModel

inductive Op
  | setBody (body : Bytes)
  | appendBody (data : Bytes)
  | clearBody
  | redirect (url : Bytes) (code : HttpStatusCode)
  | reset
  | setStatusCode (code : HttpStatusCode)
  | setCloseConnection (close : Bool)
  | setContentType (contentType : Bytes)
  | addHeader (field value : Bytes)
  | setHeader (field value : Bytes)
  | removeHeader (field : Bytes)
  deriving DecidableEq

def apply (r : HttpResponse) : Op → HttpResponse
  | .setBody body => r.setBody body
  | .appendBody data => r.appendBody data
  | .clearBody => r.clearBody
  | .redirect url code => r.redirect url code
  | .reset => r.reset
  | .setStatusCode code => r.setStatusCode code
  | .setCloseConnection close => r.setCloseConnection close
  | .setContentType t => r.setContentType t
  | .addHeader field value => r.addHeader field value
  | .setHeader field value => r.setHeader field value
  | .removeHeader field => r.removeHeader field

def contentLength : Bytes := ascii "content-length"

/-- The header operations leave content-length alone, in any case of its letters. -/
def Allowed : Op → Prop
  | .addHeader field _ | .setHeader field _ | .removeHeader field => lower field ≠ contentLength
  | _ => True

def build (ops : List Op) : HttpResponse := ops.foldl apply {}

/-- Every content-length field that the serialiser writes is the size of the body it writes,
whatever order the header map is walked in and whatever the date. -/
def Agrees (r : HttpResponse) : Prop :=
  ∀ order date value, order.Perm r.headers.entries →
    ⟨contentLength, value⟩ ∈ emittedFields r order date → value = decimal r.body.length

def sizeAfter (size : ℕ) : Op → ℕ
  | .setBody body => body.length
  | .appendBody data => size + data.length
  | .clearBody | .reset => 0
  | .redirect url _ => (HttpResponse.redirectBody url).length
  | _ => size

def sinceReset (ops : List Op) : List Op := ops.rtakeWhile (· ≠ .reset)

def sizes (ops : List Op) : List ℕ := ops.scanl sizeAfter 0

def firstSize (ops : List Op) : Option ℕ := (sizes ops).find? (· ≠ 0)

def finalSize (ops : List Op) : ℕ := ops.foldl sizeAfter 0

theorem lookup_contentLength_ensure (r : HttpResponse) :
    r.ensureContentLength.headers.lookup contentLength =
      (r.headers.lookup contentLength).or
        (if r.body = [] then none else some (decimal r.body.length)) := by
  have hlow : lower (ascii "content-length") = contentLength := by decide
  unfold HttpResponse.ensureContentLength HttpResponse.hasHeader Headers.has
  rw [hlow]
  cases h : r.headers.lookup contentLength with
  | some v => simp [h]
  | none =>
    by_cases hb : r.body = []
    · simp [hb, h]
    · simp only [hb, ne_eq, not_false_eq_true, Option.isSome_none, and_self, if_true, if_false]
      exact AList.lookup_insert _

@[simp] theorem ensureContentLength_body (r : HttpResponse) :
    r.ensureContentLength.body = r.body := by
  unfold HttpResponse.ensureContentLength
  split_ifs <;> rfl

theorem apply_spec {r : HttpResponse} {op : Op} (hop : Allowed op) (hne : op ≠ .reset)
    (hann : r.body.length ≠ 0 → (r.headers.lookup contentLength).isSome) :
    (apply r op).body.length = sizeAfter r.body.length op ∧
      (apply r op).headers.lookup contentLength = (r.headers.lookup contentLength).or
        (if (apply r op).body.length = 0 then none else some (decimal (apply r op).body.length)) := by
  have hkeep : (r.headers.lookup contentLength).or
      (if r.body.length = 0 then none else some (decimal r.body.length)) =
        r.headers.lookup contentLength := by
    split_ifs with h
    · simp
    · exact Option.or_of_isSome (hann h)
  have hlocation : contentLength ≠ lower (ascii "location") := by decide
  have htype : contentLength ≠ lower (ascii "content-type") := by decide
  cases op with
  | setBody body =>
    simp [apply, HttpResponse.setBody, lookup_contentLength_ensure, sizeAfter]
  | appendBody data =>
    simp [apply, HttpResponse.appendBody, lookup_contentLength_ensure, sizeAfter]
  | clearBody => simp [apply, HttpResponse.clearBody, sizeAfter]
  | redirect url code =>
    simp [apply, HttpResponse.redirect, HttpResponse.setBody, lookup_contentLength_ensure, sizeAfter,
      HttpResponse.setHtmlContentType, HttpResponse.setContentType, HttpResponse.setHeader,
      HttpResponse.setStatusCode, Headers.lookup_set_ne _ _ hlocation,
      Headers.lookup_set_ne _ _ htype]
  | reset => exact absurd rfl hne
  | setStatusCode code => exact ⟨rfl, hkeep.symm⟩
  | setCloseConnection close => exact ⟨rfl, hkeep.symm⟩
  | setContentType t => exact ⟨rfl, (Headers.lookup_set_ne _ t htype).trans hkeep.symm⟩
  | addHeader field value =>
    exact ⟨rfl, (Headers.lookup_add_ne _ value (Ne.symm hop)).trans hkeep.symm⟩
  | setHeader field value =>
    exact ⟨rfl, (Headers.lookup_set_ne _ value (Ne.symm hop)).trans hkeep.symm⟩
  | removeHeader field =>
    exact ⟨rfl, (AList.lookup_erase_ne (Ne.symm hop)).trans hkeep.symm⟩

theorem finalSize_append (ops : List Op) (op : Op) :
    finalSize (ops ++ [op]) = sizeAfter (finalSize ops) op := by
  simp [finalSize]

theorem firstSize_append (ops : List Op) (op : Op) :
    firstSize (ops ++ [op]) = (firstSize ops).or
      (if finalSize (ops ++ [op]) = 0 then none else some (finalSize (ops ++ [op]))) := by
  simp only [firstSize, sizes, List.scanl_append, List.find?_append, finalSize, List.foldl_append]
  by_cases h : sizeAfter (ops.foldl sizeAfter 0) op = 0 <;> simp [h]

theorem firstSize_isSome {ops : List Op} (h : finalSize ops ≠ 0) : (firstSize ops).isSome := by
  induction ops using List.reverseRecOn with
  | nil => exact absurd rfl h
  | append_singleton ops op _ => simp [firstSize_append, h]

/-- After every sequence of operations on a response without a body and without the header, the
body has the final size and the table announces the first one. -/
theorem foldl_apply_length {r : HttpResponse} (hbody : r.body = [])
    (hnone : r.headers.lookup contentLength = none) {ops : List Op} (hops : ∀ op ∈ ops, Allowed op) :
    (ops.foldl apply r).body.length = finalSize (sinceReset ops) ∧
      (ops.foldl apply r).headers.lookup contentLength =
        (firstSize (sinceReset ops)).map decimal := by
  induction ops using List.reverseRecOn with
  | nil => exact ⟨congrArg List.length hbody, hnone⟩
  | append_singleton ops op ih =>
    obtain ⟨hsize, hlook⟩ := ih fun o ho => hops o (by simp [ho])
    have hlast : (ops ++ [op]).foldl apply r = apply (ops.foldl apply r) op := by simp
    by_cases hreset : op = .reset
    · subst hreset
      have hsince : sinceReset (ops ++ [.reset]) = [] := List.rtakeWhile_concat_neg _ _ _ (by simp)
      rw [hlast, hsince]
      exact ⟨rfl, rfl⟩
    · have hsince : sinceReset (ops ++ [op]) = sinceReset ops ++ [op] :=
        List.rtakeWhile_concat_pos _ _ _ (by simpa using hreset)
      have hann : (ops.foldl apply r).body.length ≠ 0 →
          ((ops.foldl apply r).headers.lookup contentLength).isSome := by
        intro h
        rw [hlook, Option.isSome_map]
        exact firstSize_isSome (hsize ▸ h)
      obtain ⟨hsize', hlook'⟩ := apply_spec (hops op (by simp)) hreset hann
      rw [hsize, ← finalSize_append] at hsize'
      rw [hlast, hsince, hlook', hsize', hlook, firstSize_append]
      refine ⟨rfl, ?_⟩
      cases firstSize (sinceReset ops) with
      | some n => rfl
      | none => split_ifs <;> rfl

theorem build_spec {ops : List Op} (hops : ∀ op ∈ ops, Allowed op) :
    (build ops).body.length = finalSize (sinceReset ops) ∧
      (build ops).headers.lookup contentLength = (firstSize (sinceReset ops)).map decimal :=
  foldl_apply_length rfl rfl hops

/-- The only content-length the serialiser writes is the one of the table. -/
theorem mem_emittedFields {r : HttpResponse} {order : List Field} (date value : Bytes)
    (horder : order.Perm r.headers.entries) :
    ⟨contentLength, value⟩ ∈ emittedFields r order date ↔
      r.headers.lookup contentLength = some value := by
  have hconnection : contentLength ≠ ascii "connection" := by decide
  have hserver : contentLength ≠ ascii "server" := by decide
  have hdate : contentLength ≠ ascii "date" := by decide
  have hrest : ⟨contentLength, value⟩ ∈ emittedFields r order date ↔
      (⟨contentLength, value⟩ : Field) ∈ order := by
    unfold emittedFields
    split_ifs <;> simp [hconnection, hserver, hdate]
  rw [hrest, horder.mem_iff, ← AList.mem_lookup_iff]
  rfl

/-- A response written after any allowed sequence of operations is a status line, header
fields, a blank line and the body, and its content-length is the size of that body exactly
when, since the last `reset`, the first non-zero size of the body is the final one. -/
theorem contentLength_agrees_iff (ops : List Op) (hops : ∀ op ∈ ops, Allowed op) :
    (∀ order date, toBuffer (build ops) order date = statusLine (build ops) ++
      (((emittedFields (build ops) order date).map fieldLine).flatten ++ (crlf ++ (build ops).body))) ∧
    (Agrees (build ops) ↔
      ∀ n ∈ firstSize (sinceReset ops), n = finalSize (sinceReset ops)) := by
  obtain ⟨hsize, hlook⟩ := build_spec hops
  refine ⟨toBuffer_eq _, fun h n hn => ?_, fun h order date value horder hmem => ?_⟩
  · have hfield := (mem_emittedFields [] (decimal n) (List.Perm.refl (build ops).headers.entries)).mpr
      (by rw [hlook, Option.mem_def.mp hn]; rfl)
    rw [← hsize]
    exact decimal_injective (h _ _ _ (List.Perm.refl _) hfield)
  · rw [mem_emittedFields date value horder, hlook] at hmem
    obtain ⟨n, hn, rfl⟩ := Option.map_eq_some_iff.mp hmem
    rw [hsize, h n hn]

/-- A body replaced by one of the same size keeps its header right. -/
theorem contentLength_agrees_replaced :
    Agrees (build [.setBody (ascii "Hello"), .appendBody (ascii "!"), .setBody (ascii "World")]) :=
  (contentLength_agrees_iff _ (by simp [Allowed])).2.mpr (by decide)

/-- A body that grows after its header was written: 5 is announced, 6 bytes follow. -/
theorem contentLength_disagrees_appended :
    ¬ ∀ ops : List Op, (∀ op ∈ ops, Allowed op) → Agrees (build ops) := by
  intro h
  let ops : List Op := [.setBody (ascii "Hello"), .appendBody (ascii "!")]
  have hfield : (⟨contentLength, ascii "5"⟩ : Field) ∈
      emittedFields (build ops) (build ops).headers.entries [] := by decide
  have hfive := h ops (by simp [ops, Allowed]) _ _ _ (List.Perm.refl _) hfield
  exact absurd hfive (by decide)

end TzzeroHttp.ResponseLength
