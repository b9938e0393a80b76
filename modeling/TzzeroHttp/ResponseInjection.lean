import TzzeroHttp.ParserGrammar
import TzzeroHttp.ResponseDecoding

/-! How the text of one header value reaches the lines of a response. Values are written as
they are, so one with a CR LF brings lines of its own; two values without one leave the number
and the names of all lines alone. Two runs of the same operations are compared, which differ
in one argument. -/
namespace TzzeroHttp.ResponseInjection
open ByteText HeaderMap ListSearch ResponseModel ParserModel ResponseConnection ResponseDecoding
open ParserGrammar (Unbroken)
open ResponseLength (Op apply build)

/-- The lines after the status line, up to the first double CR LF. -/
def headerLines (out : Bytes) : List Bytes :=
  match search (crlf ++ crlf) out with
  | some k => (lines (out.take k)).tail
  | none => (lines out).tail

def lineName (line : Bytes) : Option Bytes := (line.idxOf? colon).map line.take

/-- The calls that take a value: all of the arguments but that one. -/
inductive Slot
  | setHeader (field : Bytes)
  | addHeader (field : Bytes)
  | redirect (code : HttpStatusCode)

def fill : Slot → Bytes → Op
  | .setHeader field, value => .setHeader field value
  | .addHeader field, value => .addHeader field value
  | .redirect code, url => .redirect url code

/-- The same names, in the same order, whichever of the two texts is the argument. The map of
both responses is walked in the same order of its keys. -/
def NamesKept (before after : List Op) (slot : Slot) (v w : Bytes) : Prop :=
  let r := build (before ++ fill slot v :: after)
  let r' := build (before ++ fill slot w :: after)
  ∀ (order order' : List Field) (date : Bytes), order.Perm r.headers.entries →
    order'.Perm r'.headers.entries → order.map Sigma.fst = order'.map Sigma.fst →
    (headerLines (toBuffer r order date)).map lineName =
      (headerLines (toBuffer r' order' date)).map lineName

/-- Values that differ in an unbroken beginning. -/
def Alike (x y : Bytes) : Prop :=
  x = y ∨ ∃ u w s, x = u ++ s ∧ y = w ++ s ∧ Unbroken u ∧ Unbroken w ∧ s.head? ≠ some lf

def AlikeTables (h h' : Headers) : Prop := ∀ f, Option.Rel Alike (h.lookup f) (h'.lookup f)

/-- Two responses that differ in alike values and in what a non-empty body holds. -/
structure Similar (r r' : HttpResponse) : Prop where
  close : r.closeConnection = r'.closeConnection
  body : r.body = [] ↔ r'.body = []
  headers : AlikeTables r.headers r'.headers

def SameName (l l' : Bytes) : Prop := lineName l = lineName l' ∧ (l = [] ↔ l' = [])

section Values

theorem Alike.refl (x : Bytes) : Alike x x := .inl rfl

theorem alike_of_unbroken {u w : Bytes} (hu : Unbroken u) (hw : Unbroken w) : Alike u w :=
  .inr ⟨u, w, [], by simp, by simp, hu, hw, by simp⟩

theorem unbroken_decimal (n : ℕ) : Unbroken (decimal n) := by
  intro h
  exact cr_notMem_decimal n (h.subset (by simp [crlf]))

theorem unbroken_append {u w : Bytes} (hu : Unbroken u) (hw : Unbroken w)
    (hmeet : u.getLast? = some cr → w.head? ≠ some lf) : Unbroken (u ++ w) := by
  apply not_infix_of_pieces cr_ne_lf
  have hmerge : lines (u ++ w) = [] ++ [u ++ w] :=
    pieces_merge (pieces_unbroken hu) (pieces_unbroken hw) hmeet
  exact hmerge

theorem separator_head (value : Bytes) : (ascii ", " ++ value).head? ≠ some lf := by
  have hcomma : some (44 : UInt8) ≠ some lf := by decide
  exact hcomma

/-- `add_header` puts the same text behind both values. -/
theorem Alike.append {x y : Bytes} (h : Alike x y) (value : Bytes) :
    Alike (x ++ (ascii ", " ++ value)) (y ++ (ascii ", " ++ value)) := by
  rcases h with rfl | ⟨u, w, s, rfl, rfl, hu, hw, hs⟩
  · exact .inl rfl
  · refine .inr ⟨u, w, s ++ (ascii ", " ++ value), by simp, by simp, hu, hw, ?_⟩
    cases s with
    | nil => exact separator_head value
    | cons c s => simpa using hs

theorem lineName_colon (l t : Bytes) :
    lineName (l ++ colon :: t) = some (l.takeWhile (· ≠ colon)) := by
  induction l with
  | nil => simp [lineName, List.idxOf?_cons]
  | cons c l ih =>
    obtain ⟨i, hi, htake⟩ := Option.map_eq_some_iff.mp ih
    by_cases hc : c = colon
    · simp [lineName, List.idxOf?_cons, hc]
    · simp [lineName, List.idxOf?_cons, hc, hi, htake]

/-- The lines of a field whose value begins unbroken: the beginning is in one line, with the
colon in front of it. -/
theorem fieldLines_begin {name u s l m : Bytes} {ls ms : List Bytes} (hname : lines name = ls ++ [l])
    (hs : lines s = m :: ms) (hu : Unbroken u) (hmeet : s.head? ≠ some lf) :
    fieldLines ⟨name, u ++ s⟩ = ls ++ (l ++ colon :: (32 :: (u ++ m))) :: ms := by
  have hsep : Unbroken [colon, 32] := by
    unfold Unbroken
    decide
  have hspace : [colon, 32].getLast? ≠ some cr := by decide
  have hcolon : some colon ≠ some lf := by decide
  have hfirst : Unbroken ([colon, 32] ++ u) := unbroken_append hsep hu fun h => absurd h hspace
  have hrest : lines (([colon, 32] ++ u) ++ s) = [] ++ (([colon, 32] ++ u) ++ m) :: ms :=
    pieces_merge (pieces_unbroken hfirst) hs fun _ => hmeet
  have hall := pieces_merge hname hrest fun _ => hcolon
  have htext : fieldText ⟨name, u ++ s⟩ = name ++ (([colon, 32] ++ u) ++ s) := by simp [fieldText_eq]
  rw [fieldLines, htext]
  exact hall

/-- The one line that differs keeps its name. -/
theorem fieldLines_alike (name : Bytes) {x y : Bytes} (h : Alike x y) :
    List.Forall₂ SameName (fieldLines ⟨name, x⟩) (fieldLines ⟨name, y⟩) := by
  have hsame : ∀ ls : List Bytes, List.Forall₂ SameName ls ls := fun ls =>
    List.forall₂_same.mpr fun l _ => ⟨rfl, Iff.rfl⟩
  rcases h with rfl | ⟨u, w, s, rfl, rfl, hu, hw, hs⟩
  · exact hsame _
  · obtain ⟨ls, l, hname⟩ := (List.eq_nil_or_concat' (lines name)).resolve_left (pieces_ne_nil name)
    obtain ⟨m, ms, hrest⟩ : ∃ m ms, lines s = m :: ms := List.exists_cons_of_ne_nil (pieces_ne_nil s)
    rw [fieldLines_begin hname hrest hu hs, fieldLines_begin hname hrest hw hs]
    refine List.rel_append (hsame ls) (.cons ⟨?_, ?_⟩ (hsame ms))
    · rw [lineName_colon, lineName_colon]
    · simp

end Values

section Tables
variable {h h' : Headers}

theorem AlikeTables.set (hh : AlikeTables h h') (field : Bytes) {x y : Bytes} (hxy : Alike x y) :
    AlikeTables (h.set field x) (h'.set field y) := by
  intro f
  by_cases hf : f = lower field
  · subst hf
    rw [Headers.set, Headers.set, AList.lookup_insert, AList.lookup_insert]
    exact .some hxy
  · rw [Headers.lookup_set_ne h x hf, Headers.lookup_set_ne h' y hf]
    exact hh f

theorem AlikeTables.add (hh : AlikeTables h h') (field value : Bytes) :
    AlikeTables (h.add field value) (h'.add field value) := by
  intro f
  by_cases hf : f = lower field
  · subst hf
    rw [Headers.lookup_add_self, Headers.lookup_add_self]
    have hrel := hh (lower field)
    generalize h.lookup (lower field) = o, h'.lookup (lower field) = o' at hrel
    cases hrel with
    | none => exact .some (Alike.refl value)
    | some hxy => exact .some (hxy.append value)
  · rw [Headers.lookup_add_ne h value hf, Headers.lookup_add_ne h' value hf]
    exact hh f

theorem AlikeTables.remove (hh : AlikeTables h h') (field : Bytes) :
    AlikeTables (h.remove field) (h'.remove field) := by
  intro f
  by_cases hf : f = lower field
  · subst hf
    rw [Headers.remove, Headers.remove, AList.lookup_erase, AList.lookup_erase]
    exact .none
  · rw [Headers.remove, Headers.remove, AList.lookup_erase_ne hf, AList.lookup_erase_ne hf]
    exact hh f

theorem AlikeTables.has_eq (hh : AlikeTables h h') (field : Bytes) : h.has field = h'.has field := by
  unfold Headers.has
  have hrel := hh (lower field)
  generalize h.lookup (lower field) = o, h'.lookup (lower field) = o' at hrel
  cases hrel with
  | none => rfl
  | some _ => rfl

end Tables

section Operations
variable {r r' : HttpResponse}

theorem Similar.refl (r : HttpResponse) : Similar r r :=
  ⟨rfl, Iff.rfl, fun f => by cases r.headers.lookup f <;> constructor; exact Alike.refl _⟩

theorem Similar.setHeader (h : Similar r r') (field : Bytes) {x y : Bytes} (hxy : Alike x y) :
    Similar (r.setHeader field x) (r'.setHeader field y) :=
  ⟨h.close, h.body, h.headers.set field hxy⟩

theorem Similar.ensureContentLength (h : Similar r r') :
    Similar r.ensureContentLength r'.ensureContentLength := by
  unfold HttpResponse.ensureContentLength
  have hhas : r.hasHeader (ascii "content-length") = r'.hasHeader (ascii "content-length") :=
    h.headers.has_eq _
  have hsame : (r.body ≠ [] ∧ r.hasHeader (ascii "content-length") = false) ↔
      (r'.body ≠ [] ∧ r'.hasHeader (ascii "content-length") = false) := by
    rw [hhas, ne_eq, ne_eq, h.body]
  by_cases hnew : r'.body ≠ [] ∧ r'.hasHeader (ascii "content-length") = false
  · rw [if_pos (hsame.mpr hnew), if_pos hnew]
    exact h.setHeader _ (alike_of_unbroken (unbroken_decimal _) (unbroken_decimal _))
  · rw [if_neg (mt hsame.mp hnew), if_neg hnew]
    exact h

theorem Similar.withBody (h : Similar r r') {x y : Bytes} (hxy : x = [] ↔ y = []) :
    Similar (r.setBody x) (r'.setBody y) := by
  have hbody : Similar { r with body := x } { r' with body := y } := ⟨h.close, hxy, h.headers⟩
  exact hbody.ensureContentLength

theorem Similar.redirect (h : Similar r r') (code : HttpStatusCode) {v w : Bytes} (hvw : Alike v w) :
    Similar (r.redirect v code) (r'.redirect w code) := by
  have hstatus : Similar (r.setStatusCode code) (r'.setStatusCode code) := ⟨h.close, h.body, h.headers⟩
  have hlocation := hstatus.setHeader (ascii "location") hvw
  have htype := hlocation.setHeader (ascii "content-type") (Alike.refl (ascii "text/html; charset=utf-8"))
  apply Similar.withBody htype
  have hne : ∀ url, HttpResponse.redirectBody url ≠ [] := by
    intro url
    simp [HttpResponse.redirectBody, ascii]
  simp [hne]

theorem Similar.apply (h : Similar r r') (op : Op) : Similar (apply r op) (apply r' op) := by
  cases op with
  | setBody body => exact h.withBody Iff.rfl
  | appendBody data =>
    apply Similar.withBody h
    rw [List.append_eq_nil_iff, List.append_eq_nil_iff, h.body]
  | clearBody => exact ⟨h.close, Iff.rfl, h.headers⟩
  | redirect url code => exact h.redirect code (Alike.refl url)
  | reset => exact Similar.refl {}
  | setStatusCode code => exact ⟨h.close, h.body, h.headers⟩
  | setCloseConnection close => exact ⟨rfl, h.body, h.headers⟩
  | setContentType t => exact h.setHeader _ (Alike.refl t)
  | addHeader field value => exact ⟨h.close, h.body, h.headers.add field value⟩
  | setHeader field value => exact h.setHeader field (Alike.refl value)
  | removeHeader field => exact ⟨h.close, h.body, h.headers.remove field⟩

theorem Similar.foldl (h : Similar r r') (ops : List Op) :
    Similar (ops.foldl ResponseLength.apply r) (ops.foldl ResponseLength.apply r') := by
  induction ops generalizing r r' with
  | nil => exact h
  | cons op ops ih => exact ih (h.apply op)

end Operations

section Lines

/-- Walking both tables in the same order of keys meets alike values. -/
theorem order_alike {h h' : Headers} (hh : AlikeTables h h') {order order' : List Field}
    (horder : ∀ f ∈ order, h.lookup f.1 = some f.2) (horder' : ∀ f ∈ order', h'.lookup f.1 = some f.2)
    (hkeys : order.map Sigma.fst = order'.map Sigma.fst) :
    List.Forall₂ (fun f g : Field => f.1 = g.1 ∧ Alike f.2 g.2) order order' := by
  induction order generalizing order' with
  | nil =>
    rw [List.map_nil, eq_comm, List.map_eq_nil_iff] at hkeys
    rw [hkeys]
    exact .nil
  | cons f order ih =>
    cases order' with
    | nil => simp at hkeys
    | cons g order' =>
      rw [List.map_cons, List.map_cons, List.cons.injEq] at hkeys
      have hrel := hh f.1
      rw [horder f (by simp), hkeys.1, horder' g (by simp)] at hrel
      cases hrel with
      | some hfg =>
        refine .cons ⟨hkeys.1, hfg⟩ (ih ?_ ?_ hkeys.2)
        · exact fun f' hf' => horder f' (by simp [hf'])
        · exact fun g' hg' => horder' g' (by simp [hg'])

theorem flatMap_alike {order order' : List Field}
    (h : List.Forall₂ (fun f g : Field => f.1 = g.1 ∧ Alike f.2 g.2) order order') :
    List.Forall₂ SameName (order.flatMap fieldLines) (order'.flatMap fieldLines) := by
  induction h with
  | nil => exact .nil
  | @cons f g order order' hfg _ ih =>
    obtain ⟨hname, hvalue⟩ := hfg
    have hlines := fieldLines_alike f.1 hvalue
    rw [List.flatMap_cons, List.flatMap_cons]
    refine List.rel_append ?_ ih
    have hg : g = ⟨f.1, g.2⟩ := by rw [hname]
    rwa [hg]

theorem untilBlank_alike {ls ls' : List Bytes} (h : List.Forall₂ SameName ls ls') :
    (untilBlank ls).map lineName = (untilBlank ls').map lineName := by
  induction h with
  | nil => rfl
  | @cons l l' ls ls' hl _ ih =>
    by_cases hnil : l = []
    · simp [untilBlank, hnil, hl.2.mp hnil]
    · rw [untilBlank_cons hnil, untilBlank_cons (mt hl.2.mpr hnil), List.map_cons, List.map_cons,
        hl.1, ih]

/-- The lines up to a blank one, and that there is more behind it. -/
theorem untilBlank_blank (xs : List Bytes) {ys : List Bytes} (hys : ys ≠ []) :
    untilBlank (xs ++ [] :: ys) = untilBlank xs ∧
      ∃ zs, zs ≠ [] ∧ xs ++ [] :: ys = untilBlank xs ++ [] :: zs := by
  induction xs with
  | nil => exact ⟨rfl, ys, hys, rfl⟩
  | cons x xs ih =>
    obtain ⟨hcut, zs, hzs, hsplit⟩ := ih
    by_cases hx : x = []
    · subst hx
      exact ⟨rfl, xs ++ [] :: ys, by simp, rfl⟩
    · refine ⟨?_, zs, hzs, ?_⟩
      · rw [List.cons_append, untilBlank_cons hx, untilBlank_cons hx, hcut]
      · rw [List.cons_append, untilBlank_cons hx, hsplit, List.cons_append]

theorem headerLines_toBuffer (r : HttpResponse) (order : List Field) (date : Bytes) :
    headerLines (toBuffer r order date) =
      untilBlank (order.flatMap fieldLines ++ (ownFields r date).flatMap fieldLines) := by
  obtain ⟨-, zs, hzs, hsplit⟩ := untilBlank_blank
    (order.flatMap fieldLines ++ (ownFields r date).flatMap fieldLines)
    (pieces_ne_nil (a := cr) (b := lf) r.body)
  have hlines : lines (toBuffer r order date) =
      (statusText r :: untilBlank (order.flatMap fieldLines ++ (ownFields r date).flatMap fieldLines)) ++
        [] :: zs := by
    rw [lines_toBuffer, ← List.append_assoc, List.cons_append, ← hsplit]
    rfl
  have hfull : [] ∉ statusText r ::
      untilBlank (order.flatMap fieldLines ++ (ownFields r date).flatMap fieldLines) := by
    rw [List.mem_cons, not_or]
    refine ⟨by simp [statusText, ascii], fun hm => ?_⟩
    simpa using List.mem_takeWhile_imp hm
  obtain ⟨us, vs, heq, hsearch, hus, -⟩ := search_blank cr_ne_lf hlines (by simp) hzs hfull
  have hfound : search (crlf ++ crlf) (toBuffer r order date) = some us.length := hsearch
  rw [headerLines, hfound]
  simp only
  rw [heq, List.take_left]
  exact congrArg List.tail hus

theorem ownFields_similar {r r' : HttpResponse} (h : Similar r r') (date : Bytes) :
    ownFields r date = ownFields r' date := by
  have hserver : r.hasHeader (ascii "server") = r'.hasHeader (ascii "server") := h.headers.has_eq _
  have hdate : r.hasHeader (ascii "date") = r'.hasHeader (ascii "date") := h.headers.has_eq _
  rw [ownFields, ownFields, h.close, hserver, hdate]

theorem names_similar {r r' : HttpResponse} (h : Similar r r') {order order' : List Field}
    (horder : order.Perm r.headers.entries) (horder' : order'.Perm r'.headers.entries)
    (hkeys : order.map Sigma.fst = order'.map Sigma.fst) (date : Bytes) :
    (headerLines (toBuffer r order date)).map lineName =
      (headerLines (toBuffer r' order' date)).map lineName := by
  have hlookup : ∀ f ∈ order, r.headers.lookup f.1 = some f.2 :=
    fun f hf => AList.mem_lookup_iff.mpr (horder.mem_iff.mp hf)
  have hlookup' : ∀ f ∈ order', r'.headers.lookup f.1 = some f.2 :=
    fun f hf => AList.mem_lookup_iff.mpr (horder'.mem_iff.mp hf)
  rw [headerLines_toBuffer, headerLines_toBuffer, ownFields_similar h]
  apply untilBlank_alike
  refine List.rel_append (flatMap_alike (order_alike h.headers hlookup hlookup' hkeys)) ?_
  exact List.forall₂_same.mpr fun l _ => ⟨rfl, Iff.rfl⟩

end Lines

theorem joined_unbroken {old value : Bytes} (hold : Unbroken old) (hvalue : Unbroken value) :
    Unbroken (old ++ (ascii ", " ++ value)) := by
  have hsep : Unbroken (ascii ", ") := by
    unfold Unbroken
    decide
  have hspace : (ascii ", ").getLast? ≠ some cr := by decide
  have hrest := unbroken_append hsep hvalue fun h => absurd h hspace
  exact unbroken_append hold hrest fun _ => separator_head value

theorem fill_similar (r : HttpResponse) (slot : Slot) {v w : Bytes} (hv : Unbroken v) (hw : Unbroken w)
    (hold : ∀ field, slot = .addHeader field → ∀ old ∈ r.headers.lookup (lower field), Unbroken old) :
    Similar (apply r (fill slot v)) (apply r (fill slot w)) := by
  have hvw := alike_of_unbroken hv hw
  cases slot with
  | setHeader field => exact (Similar.refl r).setHeader field hvw
  | redirect code => exact (Similar.refl r).redirect code hvw
  | addHeader field =>
    refine ⟨rfl, Iff.rfl, fun f => ?_⟩
    have hsame := (Similar.refl r).headers
    by_cases hf : f = lower field
    · subst hf
      simp only [fill, apply, HttpResponse.addHeader, Headers.lookup_add_self]
      cases hlookup : r.headers.lookup (lower field) with
      | none => exact .some hvw
      | some old =>
        have hstored := hold field rfl old hlookup
        exact .some (alike_of_unbroken (joined_unbroken hstored hv) (joined_unbroken hstored hw))
    · simp only [fill, apply, HttpResponse.addHeader, Headers.lookup_add_ne _ _ hf]
      exact hsame f

/-- Texts without CR LF in the place of a header value or of a redirect's target, behind a
stored value without one where `add_header` joins them: the header lines keep their number
and their names. -/
theorem names_kept_unbroken (before after : List Op) (slot : Slot) (v w : Bytes)
    (hv : Unbroken v) (hw : Unbroken w)
    (hold : ∀ field, slot = .addHeader field →
      ∀ old ∈ (build before).headers.lookup (lower field), Unbroken old) :
    NamesKept before after slot v w := by
  have hsimilar : Similar (build (before ++ fill slot v :: after)) (build (before ++ fill slot w :: after)) := by
    have hfilled := (fill_similar (build before) slot hv hw hold).foldl after
    simp only [build, List.foldl_append, List.foldl_cons]
    exact hfilled
  intro order order' date horder horder' hkeys
  exact names_similar hsimilar horder horder' hkeys date

/-- Colons and single carriage returns, joined to a stored value, with a later value that
brings a line of its own. -/
theorem names_kept_joined :
    NamesKept [.setHeader (ascii "x") (ascii "1")]
      [.addHeader (ascii "X") (ascii "2" ++ crlf ++ ascii "y: 3"), .setBody (ascii "b")]
      (.addHeader (ascii "X")) (ascii "a: b") [cr] := by
  have hv : Unbroken (ascii "a: b") := by
    unfold Unbroken
    decide
  have hw : Unbroken [cr] := by
    unfold Unbroken
    decide
  have hstored : ∀ old ∈ (build [.setHeader (ascii "x") (ascii "1")]).headers.lookup (ascii "x"),
      Unbroken old := by
    unfold Unbroken
    decide
  apply names_kept_unbroken _ _ _ _ _ hv hw
  intro field hfield
  obtain rfl := Slot.addHeader.inj hfield
  exact hstored

/-- A value with a CR LF brings a line of its own; and behind a stored value that has one, the
part in front of a colon becomes a name. -/
theorem names_injected :
    ¬ NamesKept [] [] (.setHeader (ascii "x")) (ascii "a") (ascii "a" ++ crlf ++ ascii "y: b") ∧
    ¬ NamesKept [.setHeader (ascii "x") (ascii "a" ++ crlf ++ ascii "b")] []
      (.addHeader (ascii "x")) (ascii "c") (ascii "d: e") := by
  constructor
  · intro h
    have hnames := h _ _ [] (List.Perm.refl _) (List.Perm.refl _) (by decide)
    revert hnames
    decide
  · intro h
    have hnames := h _ _ [] (List.Perm.refl _) (List.Perm.refl _) (by decide)
    revert hnames
    decide

end TzzeroHttp.ResponseInjection
