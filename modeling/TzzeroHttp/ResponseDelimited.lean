import TzzeroHttp.ResponseConnection

/-! Whether a client that keeps its connection open can tell where a response ends. The
content-length header is written when the body first becomes non-empty, so a response that
never had a body goes out without one. -/
namespace TzzeroHttp.ResponseDelimited
open ByteText HeaderMap ListSearch RequestModel ResponseModel ParserModel ServerModel
open ResponseConnection
open ResponseLength (Op apply contentLength Allowed sinceReset firstSize foldl_apply_length)

def parsedName (line : Bytes) : Option Bytes :=
  (line.idxOf? colon).map fun i => lower (headerField line i)

def Announced (ls : List Bytes) : Prop := ∃ line ∈ ls, parsedName line = some contentLength

/-- The status codes whose responses have no body: 1xx, 204 and 304. -/
def Bodiless (code : HttpStatusCode) : Prop :=
  (100 ≤ code.value ∧ code.value < 200) ∨ code.value = 204 ∨ code.value = 304

instance : DecidablePred Bodiless := fun _ => inferInstanceAs (Decidable (_ ∨ _))

/-- One response is sent, and if no shutdown comes with it and its status allows a body, its
header section has a content-length line, whatever order the header table is walked in and
whatever the time. -/
def Delimited (effects : List Effect) : Prop :=
  ∃ r, sent effects = [r] ∧ (.shutdown ∉ effects → ¬ Bodiless r.statusCode →
    ∀ order tm, order.Perm r.headers.entries →
      Announced (headerSection (toBuffer r order (strftime tm))))

/-- What the table has to hold: a content-length line, and one in front of every blank line
that an entry brings along. -/
def TableAnnounces (entries : List Field) : Prop :=
  (∃ f ∈ entries, Announced (untilBlank (fieldLines f))) ∧
    ∀ f ∈ entries, [] ∈ fieldLines f → Announced (untilBlank (fieldLines f))

def closeAfter (close : Bool) : Op → Bool
  | .setCloseConnection c => c
  | .reset => false
  | _ => close

def statusAfter (status : HttpStatusCode) : Op → HttpStatusCode
  | .setStatusCode c | .redirect _ c => c
  | .reset => .ok
  | _ => status

theorem announced_append {xs ys : List Bytes} :
    Announced (xs ++ ys) ↔ Announced xs ∨ Announced ys := by
  simp only [Announced, List.mem_append, or_and_right, exists_or]

theorem untilBlank_eq_self {xs : List Bytes} (h : [] ∉ xs) : untilBlank xs = xs := by
  have happend := untilBlank_append_of_notMem h []
  rw [List.append_nil] at happend
  rw [happend]
  exact List.append_nil xs

variable {entries order : List Field} {tail : List Bytes}

/-- In whatever order the entries come, the section reaches a content-length line. -/
theorem announced_of_table (h : TableAnnounces order) :
    Announced (untilBlank (order.flatMap fieldLines ++ tail)) := by
  induction order with
  | nil =>
    obtain ⟨⟨f, hf, -⟩, -⟩ := h
    exact absurd hf List.not_mem_nil
  | cons f order ih =>
    rw [List.flatMap_cons, List.append_assoc]
    by_cases hblank : [] ∈ fieldLines f
    · rw [untilBlank_append_of_mem hblank]
      exact h.2 f (by simp) hblank
    · rw [untilBlank_append_of_notMem hblank, announced_append]
      obtain ⟨g, hg, hannounced⟩ := h.1
      rcases List.mem_cons.mp hg with rfl | hg
      · rw [untilBlank_eq_self hblank] at hannounced
        exact .inl hannounced
      · exact .inr (ih ⟨⟨g, hg, hannounced⟩, fun k hk => h.2 k (by simp [hk])⟩)

theorem not_announced (hnone : ∀ f ∈ order, ¬ Announced (untilBlank (fieldLines f)))
    (htail : ¬ Announced (untilBlank tail)) :
    ¬ Announced (untilBlank (order.flatMap fieldLines ++ tail)) := by
  induction order with
  | nil => exact htail
  | cons f order ih =>
    have hf := hnone f (by simp)
    have hrest := ih fun g hg => hnone g (by simp [hg])
    rw [List.flatMap_cons, List.append_assoc]
    by_cases hblank : [] ∈ fieldLines f
    · rwa [untilBlank_append_of_mem hblank]
    · rw [untilBlank_eq_self hblank] at hf
      rw [untilBlank_append_of_notMem hblank, announced_append]
      exact not_or.mpr ⟨hf, hrest⟩

/-- If the section has a content-length line in every order, the table announces it. -/
theorem table_of_announced (htail : ¬ Announced (untilBlank tail))
    (hall : ∀ order : List Field, order.Perm entries →
      Announced (untilBlank (order.flatMap fieldLines ++ tail))) : TableAnnounces entries := by
  constructor
  · by_contra hnone
    push Not at hnone
    exact not_announced hnone htail (hall entries (List.Perm.refl _))
  · intro f hf hblank
    have h := hall _ (List.perm_cons_erase hf).symm
    rwa [List.flatMap_cons, List.append_assoc, untilBlank_append_of_mem hblank] at h

theorem parsedName_fieldText {f : Field} (h : PlainName f.1) :
    parsedName (fieldText f) = some (lower f.1) := by
  obtain ⟨hcolon, hname⟩ := headerField_fieldText h
  rw [parsedName, hcolon, Option.map_some, hname]

theorem own_not_announced (r : HttpResponse) (tm : Tm) (rest : List Bytes) :
    ¬ Announced (untilBlank ((ownFields r (strftime tm)).flatMap fieldLines ++ [] :: rest)) := by
  have hnames : ∀ f ∈ ownFields r (strftime tm), lower f.1 ≠ contentLength := by
    have hconnection : lower connection ≠ contentLength := by decide
    have hserver : lower (ascii "server") ≠ contentLength := by decide
    have hdate : lower (ascii "date") ≠ contentLength := by decide
    exact forall_mem_ownFields hconnection hserver hdate
  apply not_announced
  · rintro f hf ⟨line, hline, hname⟩
    have hplain := ownFields_plain r tm f hf
    have hmem := (List.takeWhile_sublist _).subset hline
    rw [fieldLines_plain hplain.1 hplain.2] at hmem
    obtain rfl := List.mem_singleton.mp hmem
    rw [parsedName_fieldText hplain.1] at hname
    exact hnames f hf (Option.some.inj hname)
  · rintro ⟨line, hline, -⟩
    exact absurd hline List.not_mem_nil

theorem tableAnnounces_plain {h : Headers} (hplain : PlainTable h) :
    TableAnnounces h.entries ↔ (h.lookup contentLength).isSome = true := by
  have hlines : ∀ f ∈ h.entries, fieldLines f = [fieldText f] := by
    intro f hf
    exact fieldLines_plain (hplain f hf).1 (hplain f hf).2.1
  have hcut : ∀ f ∈ h.entries, untilBlank (fieldLines f) = [fieldText f] := by
    intro f hf
    have hfree : [] ∉ [fieldText f] := by simpa using (fieldText_ne_nil f).symm
    rw [hlines f hf, untilBlank_eq_self hfree]
  have hone : ∀ f ∈ h.entries, Announced (untilBlank (fieldLines f)) ↔ f.1 = contentLength := by
    intro f hf
    rw [hcut f hf, Announced]
    simp only [List.mem_singleton, exists_eq_left, parsedName_fieldText (hplain f hf).1,
      Option.some.injEq, (hplain f hf).2.2]
  constructor
  · rintro ⟨⟨f, hf, hannounced⟩, -⟩
    have hkey := (hone f hf).mp hannounced
    have hv : h.lookup f.1 = some f.2 := AList.mem_lookup_iff.mpr hf
    rw [hkey] at hv
    exact Option.isSome_of_eq_some hv
  · intro hsome
    obtain ⟨value, hv⟩ := Option.isSome_iff_exists.mp hsome
    have hmem : (⟨contentLength, value⟩ : Field) ∈ h.entries := AList.mem_lookup_iff.mp hv
    refine ⟨⟨_, hmem, (hone _ hmem).mpr rfl⟩, ?_⟩
    intro f hf hblank
    rw [hlines f hf, List.mem_singleton] at hblank
    exact absurd hblank.symm (fieldText_ne_nil f)

section Server

variable {server : HttpServer} {req : HttpRequest}

/-- The exact condition on the response as the handler leaves it. -/
theorem delimited_iff : Delimited (server.onRequest req) ↔
    (handled server req).closeConnection = true ∨ Bodiless (handled server req).statusCode ∨
      TableAnnounces (handled server req).headers.entries := by
  obtain ⟨hsent, hshutdown⟩ := onRequest_spec server req
  unfold Delimited
  rw [hsent, propext hshutdown]
  constructor
  · rintro ⟨r, hr, hall⟩
    obtain rfl := List.singleton_injective hr
    by_cases hclose : (handled server req).closeConnection = true
    · exact .inl hclose
    by_cases hstatus : Bodiless (handled server req).statusCode
    · exact .inr (.inl hstatus)
    right
    right
    apply table_of_announced (own_not_announced _ ⟨0, 1, 0, 1970, 0, 0, 0⟩ _)
    intro order horder
    have h := hall hclose hstatus order ⟨0, 1, 0, 1970, 0, 0, 0⟩ horder
    rwa [headerSection_toBuffer] at h
  · intro h
    refine ⟨_, rfl, fun hclose hstatus order tm horder => ?_⟩
    have htable := (h.resolve_left hclose).resolve_left hstatus
    rw [headerSection_toBuffer]
    apply announced_of_table
    obtain ⟨⟨f, hf, hannounced⟩, hblank⟩ := htable
    exact ⟨⟨f, horder.mem_iff.mpr hf, hannounced⟩, fun g hg => hblank g (horder.mem_iff.mp hg)⟩

theorem ensureContentLength_flags (r : HttpResponse) :
    r.ensureContentLength.closeConnection = r.closeConnection ∧
      r.ensureContentLength.statusCode = r.statusCode := by
  unfold HttpResponse.ensureContentLength
  split_ifs <;> exact ⟨rfl, rfl⟩

theorem apply_flags (r : HttpResponse) (op : Op) :
    (apply r op).closeConnection = closeAfter r.closeConnection op ∧
      (apply r op).statusCode = statusAfter r.statusCode op := by
  cases op with
  | setBody body => exact ensureContentLength_flags _
  | appendBody data => exact ensureContentLength_flags _
  | redirect url code => exact ensureContentLength_flags _
  | clearBody => exact ⟨rfl, rfl⟩
  | reset => exact ⟨rfl, rfl⟩
  | setStatusCode code => exact ⟨rfl, rfl⟩
  | setCloseConnection close => exact ⟨rfl, rfl⟩
  | setContentType t => exact ⟨rfl, rfl⟩
  | addHeader field value => exact ⟨rfl, rfl⟩
  | setHeader field value => exact ⟨rfl, rfl⟩
  | removeHeader field => exact ⟨rfl, rfl⟩

theorem foldl_apply_flags (ops : List Op) (r : HttpResponse) :
    (ops.foldl apply r).closeConnection = ops.foldl closeAfter r.closeConnection ∧
      (ops.foldl apply r).statusCode = ops.foldl statusAfter r.statusCode := by
  induction ops generalizing r with
  | nil => exact ⟨rfl, rfl⟩
  | cons op ops ih =>
    obtain ⟨hclose, hstatus⟩ := apply_flags r op
    simp only [List.foldl_cons]
    rw [← hclose, ← hstatus]
    exact ih (apply r op)

/-- The response that the handler is given: kept open or not as asked, with status 200, and
with neither a body nor a content-length. -/
theorem prepare_empty (server : HttpServer) (req : HttpRequest) :
    (server.prepare req).closeConnection = (!req.keepAlive || !server.keepAliveEnabled) ∧
      (server.prepare req).statusCode = .ok ∧ (server.prepare req).body = [] ∧
      (server.prepare req).headers.lookup contentLength = none := by
  have hserver : contentLength ≠ lower (ascii "Server") := by decide
  have hconnection : contentLength ≠ lower (ascii "Connection") := by decide
  have hkeep : contentLength ≠ lower (ascii "Keep-Alive") := by decide
  unfold HttpServer.prepare
  simp only
  split_ifs with hclose hpos
  · refine ⟨rfl, rfl, rfl, ?_⟩
    exact (Headers.lookup_set_ne _ _ hconnection).trans (Headers.lookup_set_ne _ _ hserver)
  · refine ⟨rfl, rfl, rfl, ?_⟩
    exact (Headers.lookup_set_ne _ _ hkeep).trans
      ((Headers.lookup_set_ne _ _ hconnection).trans (Headers.lookup_set_ne _ _ hserver))
  · refine ⟨rfl, rfl, rfl, ?_⟩
    exact (Headers.lookup_set_ne _ _ hconnection).trans (Headers.lookup_set_ne _ _ hserver)

theorem delimited_iff_ops {ops : List Op} (hplain : ∀ op ∈ ops, Plain op ∧ Allowed op)
    (hhandled : handled server req = ops.foldl apply (server.prepare req)) :
    Delimited (server.onRequest req) ↔
      ops.foldl closeAfter (!req.keepAlive || !server.keepAliveEnabled) = true ∨
        Bodiless (ops.foldl statusAfter .ok) ∨ (firstSize (sinceReset ops)).isSome = true := by
  obtain ⟨hclose, hstatus, hbody, hnone⟩ := prepare_empty server req
  obtain ⟨htable, -⟩ := prepare_spec server req
  obtain ⟨hleft, -⟩ := foldl_apply_spec (fun op hop => (hplain op hop).1) htable
  obtain ⟨-, hlook⟩ := foldl_apply_length hbody hnone fun op hop => (hplain op hop).2
  obtain ⟨hcloses, hstatuses⟩ := foldl_apply_flags ops (server.prepare req)
  rw [delimited_iff, hhandled, tableAnnounces_plain hleft, hlook, hcloses, hstatuses, hclose,
    hstatus, Option.isSome_map]

end Server

/-- A response on a connection that stays open is delimited exactly if the table that the
handler leaves announces a length; a handler of plain operations achieves that exactly when
the body is non-empty at some time since the last `reset`; the default branch always does. -/
theorem response_delimited_iff (server : HttpServer) (req : HttpRequest) :
    (Delimited (server.onRequest req) ↔
      (handled server req).closeConnection = true ∨ Bodiless (handled server req).statusCode ∨
        TableAnnounces (handled server req).headers.entries) ∧
    (∀ handler : HttpRequest → HttpResponse → List Op,
      server.httpCallback = some (performing handler) →
      (∀ op ∈ handler req (server.prepare req), Plain op ∧ Allowed op) →
      let ops := handler req (server.prepare req)
      (Delimited (server.onRequest req) ↔
        ops.foldl closeAfter (!req.keepAlive || !server.keepAliveEnabled) = true ∨
          Bodiless (ops.foldl statusAfter .ok) ∨ (firstSize (sinceReset ops)).isSome = true)) ∧
    (server.httpCallback = none → Delimited (server.onRequest req)) := by
  refine ⟨delimited_iff, ?_, ?_⟩
  · intro handler hcallback hplain
    apply delimited_iff_ops hplain
    unfold handled
    rw [hcallback]
    rfl
  · intro hcallback
    have hhtml : PlainValue (ascii "text/html; charset=utf-8") := by decide
    let ops : List Op := [.setStatusCode .notFound,
      .setContentType (ascii "text/html; charset=utf-8"), .setBody notFoundBody]
    have hplain : ∀ op ∈ ops, Plain op ∧ Allowed op := by simp [ops, Plain, Allowed, hhtml]
    have hhandled : handled server req = ops.foldl apply (server.prepare req) := by
      unfold handled
      rw [hcallback]
      rfl
    have hsize : (firstSize (sinceReset ops)).isSome = true := by decide
    exact (delimited_iff_ops hplain hhandled).mpr (.inr (.inr hsize))

/-- A handler that fills the body and clears it again has announced a length on the way. -/
theorem response_delimited_cleared :
    let server : HttpServer := { httpCallback := some (performing fun _ _ =>
      [.setBody (ascii "Hello"), .clearBody, .setStatusCode .created]) }
    Delimited (server.onRequest getRequest) :=
  ((response_delimited_iff _ getRequest).2.1 _ rfl (by simp [Plain, Allowed])).mpr
    (by decide)

/-- A handler that only sets a status leaves the client waiting. -/
theorem response_undelimited_empty :
    ¬ ∀ (handler : HttpRequest → HttpResponse → List Op) (server : HttpServer) (req : HttpRequest),
      server.httpCallback = some (performing handler) →
      (∀ op ∈ handler req (server.prepare req), Plain op ∧ Allowed op) →
        Delimited (server.onRequest req) := by
  intro h
  let server : HttpServer := { httpCallback := some (performing fun _ _ =>
    [.setStatusCode .created]) }
  have hplain : ∀ op ∈ [Op.setStatusCode .created], Plain op ∧ Allowed op := by
    simp [Plain, Allowed]
  have hnot : ¬ Delimited (server.onRequest getRequest) := by
    rw [delimited_iff_ops hplain rfl]
    decide
  exact hnot (h _ server getRequest rfl hplain)

end TzzeroHttp.ResponseDelimited
