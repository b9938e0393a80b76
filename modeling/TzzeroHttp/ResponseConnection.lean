import TzzeroHttp.ResponseLength
import TzzeroHttp.ServerModel

/-! What a response says about the fate of its connection. The server puts the decision into
the header table and the serialiser writes a line of its own, so the bytes are read back
here line by line, as a client reads them. -/
namespace TzzeroHttp.ResponseConnection
open ByteText HeaderMap ListSearch RequestModel ResponseModel ParserModel ServerModel
open ResponseLength (Op apply)

structure Tm where
  wday : Fin 7
  mday : ℕ
  mon : Fin 12
  year : ℕ
  hour : ℕ
  min : ℕ
  sec : ℕ

def weekday : Fin 7 → Bytes
  | 0 => ascii "Sun"
  | 1 => ascii "Mon"
  | 2 => ascii "Tue"
  | 3 => ascii "Wed"
  | 4 => ascii "Thu"
  | 5 => ascii "Fri"
  | 6 => ascii "Sat"

def month : Fin 12 → Bytes
  | 0 => ascii "Jan"
  | 1 => ascii "Feb"
  | 2 => ascii "Mar"
  | 3 => ascii "Apr"
  | 4 => ascii "May"
  | 5 => ascii "Jun"
  | 6 => ascii "Jul"
  | 7 => ascii "Aug"
  | 8 => ascii "Sep"
  | 9 => ascii "Oct"
  | 10 => ascii "Nov"
  | 11 => ascii "Dec"

def twoDigits (n : ℕ) : Bytes := if n < 10 then ascii "0" ++ decimal n else decimal n

/-- `strftime` with the format `%a, %d %b %Y %H:%M:%S GMT` in the C locale. -/
def strftime (tm : Tm) : Bytes :=
  weekday tm.wday ++ ascii ", " ++ twoDigits tm.mday ++ ascii " " ++ month tm.mon ++ ascii " " ++
    decimal tm.year ++ ascii " " ++ twoDigits tm.hour ++ ascii ":" ++ twoDigits tm.min ++
    ascii ":" ++ twoDigits tm.sec ++ ascii " GMT"

def connection : Bytes := ascii "connection"

def lines (bytes : Bytes) : List Bytes := pieces cr lf bytes

def untilBlank (ls : List Bytes) : List Bytes := ls.takeWhile (· ≠ [])

def headerSection (bytes : Bytes) : List Bytes := untilBlank (lines bytes).tail

/-- The value of a connection header line, name and value taken from the line as the parser
takes them; `none` for every other line. -/
def connectionValue (line : Bytes) : Option Bytes :=
  match line.idxOf? colon with
  | some i => if lower (headerField line i) = connection then some (headerValue line i) else none
  | none => none

/-- Exactly one of the lines is a connection line, and its value is `close` just in case. -/
def Stated (ls : List Bytes) (closes : Prop) : Prop :=
  ∃ value, ls.filterMap connectionValue = [value] ∧ (lower value = ascii "close" ↔ closes)

def sent (effects : List Effect) : List HttpResponse :=
  effects.filterMap fun
    | .send r => some r
    | _ => none

/-- One response is sent, and its bytes state once whether a shutdown comes with it, whatever
order the header table is walked in and whatever the time. -/
def StatesFate (effects : List Effect) : Prop :=
  ∃ r, sent effects = [r] ∧ ∀ order tm, order.Perm r.headers.entries →
    Stated (headerSection (toBuffer r order (strftime tm))) (.shutdown ∈ effects)

def handled (server : HttpServer) (req : HttpRequest) : HttpResponse :=
  match server.httpCallback with
  | some cb => cb req (server.prepare req)
  | none =>
    (((server.prepare req).setStatusCode .notFound).setHtmlContentType).setBody notFoundBody

def fieldLines (f : Field) : List Bytes := lines (fieldText f)

/-- What an entry of the table may hold: without a blank line of its own, no connection
line; with one, which ends the header section there, the one true statement before it. -/
def Unobtrusive (close : Bool) (f : Field) : Prop :=
  if [] ∈ fieldLines f then Stated (untilBlank (fieldLines f)) (close = true)
  else (fieldLines f).filterMap connectionValue = []

def performing (handler : HttpRequest → HttpResponse → List Op) : HttpCallback :=
  fun req r => (handler req r).foldl apply r

def PlainName (name : Bytes) : Prop := ∀ c ∈ name, c ≠ cr ∧ c ≠ colon ∧ isBlank c = false
deriving Decidable

def PlainValue (value : Bytes) : Prop := cr ∉ value
deriving Decidable

/-- The operation puts no carriage return, and no colon or blank in a name, into the table. -/
def Plain : Op → Prop
  | .addHeader field value | .setHeader field value => PlainName field ∧ PlainValue value
  | .redirect url _ => PlainValue url
  | .setContentType contentType => PlainValue contentType
  | _ => True

def entryAfter (present : Bool) : Op → Bool
  | .reset => false
  | .removeHeader field => present && lower field != connection
  | .addHeader field _ | .setHeader field _ => present || lower field == connection
  | _ => present

def statusText (r : HttpResponse) : Bytes :=
  ascii "HTTP/1.1 " ++ (signedDecimal r.statusCode.value ++ (ascii " " ++ r.getStatusMessage))

/-- The fields the serialiser writes on its own account, after the table. -/
def ownFields (r : HttpResponse) (date : Bytes) : List Field :=
  ⟨connection, if r.closeConnection then ascii "close" else ascii "keep-alive"⟩ ::
    ((if r.hasHeader (ascii "server") then [] else [⟨ascii "server", ascii "TZZeroHTTP/1.0"⟩]) ++
      if r.hasHeader (ascii "date") then [] else [⟨ascii "date", date⟩])

/-- What holds of the three fields that `append_to_buffer` may add holds of those it adds. -/
theorem forall_mem_ownFields {P : Field → Prop} {r : HttpResponse} {date : Bytes}
    (hconnection : P ⟨connection, if r.closeConnection then ascii "close" else ascii "keep-alive"⟩)
    (hserver : P ⟨ascii "server", ascii "TZZeroHTTP/1.0"⟩) (hdate : P ⟨ascii "date", date⟩) :
    ∀ f ∈ ownFields r date, P f := by
  unfold ownFields
  rw [List.forall_mem_cons, List.forall_mem_append]
  refine ⟨hconnection, ?_, ?_⟩
  · split_ifs
    · simp
    · simpa using hserver
  · split_ifs
    · simp
    · simpa using hdate

theorem cr_notMem_decimal (n : ℕ) : cr ∉ decimal n := by
  intro h
  exact absurd (decimal_isDigit h) (by decide)

theorem cr_notMem_strftime (tm : Tm) : cr ∉ strftime tm := by
  have hweekday : ∀ d, cr ∉ weekday d := by decide
  have hmonth : ∀ m, cr ∉ month m := by decide
  have hzero : cr ∉ ascii "0" := by decide
  have htwo : ∀ n, cr ∉ twoDigits n := by
    intro n
    unfold twoDigits
    split_ifs
    · simp [hzero, cr_notMem_decimal]
    · exact cr_notMem_decimal n
  have hcomma : cr ∉ ascii ", " := by decide
  have hspace : cr ∉ ascii " " := by decide
  have hcolon : cr ∉ ascii ":" := by decide
  have hzone : cr ∉ ascii " GMT" := by decide
  simp only [strftime, List.mem_append, not_or]
  simp only [hweekday, hmonth, htwo, hcomma, hspace, hcolon, hzone, cr_notMem_decimal,
    not_false_eq_true, and_self]

theorem cr_notMem_signedDecimal (z : ℤ) : cr ∉ signedDecimal z := by
  have hminus : cr ∉ ascii "-" := by decide
  unfold signedDecimal
  split_ifs <;> simp [hminus, cr_notMem_decimal]

theorem cr_notMem_statusText (r : HttpResponse) : cr ∉ statusText r := by
  have hversion : cr ∉ ascii "HTTP/1.1 " := by decide
  have hspace : cr ∉ ascii " " := by decide
  have hmessage : cr ∉ r.getStatusMessage := by
    unfold HttpResponse.getStatusMessage
    cases r.statusCode with
    | unlisted v => exact (by decide : cr ∉ ascii "Unknown")
    | _ => decide
  simp only [statusText, List.mem_append, not_or]
  exact ⟨hversion, cr_notMem_signedDecimal _, hspace, hmessage⟩

theorem lines_append (xs ys : Bytes) : lines (xs ++ (crlf ++ ys)) = lines xs ++ lines ys :=
  pieces_append cr_ne_lf xs ys

theorem lines_fieldLine_flatten (fields : List Field) (rest : Bytes) :
    lines ((fields.map fieldLine).flatten ++ rest) = fields.flatMap fieldLines ++ lines rest := by
  induction fields with
  | nil => simp
  | cons f fields ih =>
    have hline : fieldLine f = fieldText f ++ crlf := by simp [fieldLine, fieldText]
    rw [List.map_cons, List.flatten_cons, hline, List.append_assoc, List.append_assoc,
      lines_append, ih, List.flatMap_cons, List.append_assoc]
    rfl

/-- The lines of a response: the status line, those of the table, the serialiser's own, a
blank one, and those of the body. -/
theorem lines_toBuffer (r : HttpResponse) (order : List Field) (date : Bytes) :
    lines (toBuffer r order date) = statusText r :: (order.flatMap fieldLines ++
      ((ownFields r date).flatMap fieldLines ++ [] :: lines r.body)) := by
  have hfields : emittedFields r order date = order ++ ownFields r date := rfl
  have hstatus : statusLine r = statusText r ++ crlf := by simp [statusLine, statusText]
  have hblank : lines (crlf ++ r.body) = [] :: lines r.body := lines_append [] r.body
  have hfirst : lines (statusText r) = [statusText r] :=
    pieces_of_notMem (cr_notMem_statusText r)
  rw [toBuffer_eq, hstatus, List.append_assoc, lines_append, lines_fieldLine_flatten, hblank,
    hfirst, hfields, List.flatMap_append, List.append_assoc]
  rfl

theorem headerSection_toBuffer (r : HttpResponse) (order : List Field) (date : Bytes) :
    headerSection (toBuffer r order date) =
      untilBlank (order.flatMap fieldLines ++
        ((ownFields r date).flatMap fieldLines ++ [] :: lines r.body)) := by
  rw [headerSection, lines_toBuffer]
  rfl

theorem untilBlank_cons {x : Bytes} (hx : x ≠ []) (xs : List Bytes) :
    untilBlank (x :: xs) = x :: untilBlank xs :=
  List.takeWhile_cons_of_pos (by simpa using hx)

theorem untilBlank_append_of_mem {xs : List Bytes} (h : [] ∈ xs) (ys : List Bytes) :
    untilBlank (xs ++ ys) = untilBlank xs := by
  induction xs with
  | nil => simp at h
  | cons x xs ih =>
    by_cases hx : x = []
    · simp [untilBlank, hx]
    · have hxs : [] ∈ xs := by
        rcases List.mem_cons.mp h with he | hm
        · exact absurd he.symm hx
        · exact hm
      rw [List.cons_append, untilBlank_cons hx, untilBlank_cons hx, ih hxs]

theorem untilBlank_append_of_notMem {xs : List Bytes} (h : [] ∉ xs) (ys : List Bytes) :
    untilBlank (xs ++ ys) = xs ++ untilBlank ys := by
  apply List.takeWhile_append_of_pos
  intro x hx
  have hne : x ≠ [] := fun he => h (he ▸ hx)
  simpa using hne

section Plain

variable {f : Field}

theorem plainName_of_all {name : Bytes}
    (h : name.all (fun c => c != cr && c != colon && !isBlank c) = true) : PlainName name := by
  intro c hc
  have hbyte := List.all_eq_true.mp h c hc
  simpa [and_assoc] using hbyte

theorem trim_of_plainName {name : Bytes} (h : PlainName name) :
    trimLeft isBlank (trimRight isBlank name) = name :=
  trim_of_no_blank fun c hc => (h c hc).2.2

theorem headerField_fieldText (h : PlainName f.1) :
    (fieldText f).idxOf? colon = some f.1.length ∧ headerField (fieldText f) f.1.length = f.1 := by
  constructor
  · rw [fieldText_eq]
    exact idxOf?_cut fun hm => (h _ hm).2.1 rfl
  · rw [headerField, fieldText_eq, List.take_left]
    exact trim_of_plainName h

theorem connectionValue_fieldText (h : PlainName f.1) :
    connectionValue (fieldText f) =
      if lower f.1 = connection then some (headerValue (fieldText f) f.1.length) else none := by
  obtain ⟨hcolon, hname⟩ := headerField_fieldText h
  rw [connectionValue, hcolon]
  simp only [hname]

theorem fieldLines_eq (hname : cr ∉ f.1) (hvalue : cr ∉ f.2) : fieldLines f = [fieldText f] := by
  apply pieces_of_notMem
  have hcolon : cr ≠ colon := by decide
  have hspace : cr ≠ 32 := by decide
  rw [fieldText_eq]
  simp [hname, hvalue, hcolon, hspace]

theorem flatMap_fieldLines {fields : List Field} (h : ∀ f ∈ fields, cr ∉ f.1 ∧ cr ∉ f.2) :
    fields.flatMap fieldLines = fields.map fieldText := by
  induction fields with
  | nil => rfl
  | cons f fields ih =>
    obtain ⟨hname, hvalue⟩ := h f (by simp)
    rw [List.flatMap_cons, fieldLines_eq hname hvalue, ih fun g hg => h g (by simp [hg])]
    rfl

theorem fieldLines_plain (hname : PlainName f.1) (hvalue : PlainValue f.2) :
    fieldLines f = [fieldText f] :=
  fieldLines_eq (fun hm => (hname cr hm).1 rfl) hvalue

theorem fieldText_ne_nil (f : Field) : fieldText f ≠ [] := by
  rw [fieldText_eq]
  simp

end Plain

theorem ownFields_plain (r : HttpResponse) (tm : Tm) :
    ∀ f ∈ ownFields r (strftime tm), PlainName f.1 ∧ PlainValue f.2 := by
  have hconnection : PlainName connection := plainName_of_all (by decide)
  have hflag : PlainValue (if r.closeConnection then ascii "close" else ascii "keep-alive") := by
    split_ifs <;> decide
  have hserver : PlainName (ascii "server") ∧ PlainValue (ascii "TZZeroHTTP/1.0") :=
    ⟨plainName_of_all (by decide), by decide⟩
  have hdate : PlainName (ascii "date") := plainName_of_all (by decide)
  exact forall_mem_ownFields ⟨hconnection, hflag⟩ hserver ⟨hdate, cr_notMem_strftime tm⟩

theorem own_values (r : HttpResponse) (tm : Tm) (rest : List Bytes) :
    (untilBlank ((ownFields r (strftime tm)).flatMap fieldLines ++ [] :: rest)).filterMap
      connectionValue = [if r.closeConnection then ascii "close" else ascii "keep-alive"] := by
  have hlines : (ownFields r (strftime tm)).flatMap fieldLines =
      (ownFields r (strftime tm)).map fieldText := by
    apply flatMap_fieldLines
    intro f hf
    obtain ⟨hname, hvalue⟩ := ownFields_plain r tm f hf
    exact ⟨fun hm => (hname cr hm).1 rfl, hvalue⟩
  have hfree : [] ∉ (ownFields r (strftime tm)).map fieldText := by
    rw [List.mem_map]
    rintro ⟨f, -, hf⟩
    exact fieldText_ne_nil f hf
  have hend : untilBlank ([] :: rest) = [] := rfl
  have hflag : connectionValue (fieldText ⟨connection,
      if r.closeConnection then ascii "close" else ascii "keep-alive"⟩) =
        some (if r.closeConnection then ascii "close" else ascii "keep-alive") := by
    split_ifs <;> decide
  have hserver : connectionValue (fieldText ⟨ascii "server", ascii "TZZeroHTTP/1.0"⟩) = none := by
    decide
  have hdate : connectionValue (fieldText ⟨ascii "date", strftime tm⟩) = none := by
    have hname : PlainName (ascii "date") := plainName_of_all (by decide)
    have hne : lower (ascii "date") ≠ connection := by decide
    rw [connectionValue_fieldText hname]
    exact if_neg hne
  rw [hlines, untilBlank_append_of_notMem hfree, hend, List.append_nil, List.filterMap_map]
  unfold ownFields
  rw [List.filterMap_cons, Function.comp_apply, hflag, List.filterMap_append]
  split_ifs <;> simp [hserver, hdate]

variable {close : Bool} {tail : List Bytes}

theorem stated_append {xs : List Bytes} (hxs : xs.filterMap connectionValue = [])
    (ys : List Bytes) (closes : Prop) : Stated (xs ++ ys) closes ↔ Stated ys closes := by
  simp [Stated, hxs]

/-- Entries that are all unobtrusive leave the statement to what follows them, or make it
themselves. -/
theorem stated_of_unobtrusive {order : List Field} (hall : ∀ f ∈ order, Unobtrusive close f)
    (htail : Stated (untilBlank tail) (close = true)) :
    Stated (untilBlank (order.flatMap fieldLines ++ tail)) (close = true) := by
  induction order with
  | nil => exact htail
  | cons f order ih =>
    have hf := hall f (by simp)
    have hrest := ih fun g hg => hall g (by simp [hg])
    rw [List.flatMap_cons, List.append_assoc]
    unfold Unobtrusive at hf
    split_ifs at hf with hblank
    · rw [untilBlank_append_of_mem hblank]
      exact hf
    · rw [untilBlank_append_of_notMem hblank]
      exact (stated_append hf _ _).mpr hrest

/-- A statement made before the end of the section leaves no room for another. -/
theorem values_eq_nil_of_stated {xs ys : List Bytes} {closes : Prop}
    (h : Stated (xs ++ ys) closes) (hys : ys.filterMap connectionValue ≠ []) :
    xs.filterMap connectionValue = [] := by
  obtain ⟨value, hone, -⟩ := h
  have hlen := congrArg List.length hone
  have hpos := List.length_pos_of_ne_nil hys
  rw [List.filterMap_append, List.length_append, List.length_singleton] at hlen
  exact List.eq_nil_of_length_eq_zero (by omega)

/-- If the bytes state the fate in every order of the table, every entry is unobtrusive. -/
theorem unobtrusive_of_stated {entries : List Field}
    (hall : ∀ order : List Field, order.Perm entries →
      Stated (untilBlank (order.flatMap fieldLines ++ tail)) (close = true))
    (htail : (untilBlank tail).filterMap connectionValue ≠ []) :
    ∀ f ∈ entries, Unobtrusive close f := by
  intro f hf
  have hfirst : (f :: entries.erase f).Perm entries := (List.perm_cons_erase hf).symm
  unfold Unobtrusive
  split_ifs with hblank
  · have h := hall _ hfirst
    rw [List.flatMap_cons, List.append_assoc, untilBlank_append_of_mem hblank] at h
    exact h
  · have hquiet : ∀ rest : List Field, (f :: rest).Perm entries →
        (untilBlank (rest.flatMap fieldLines ++ tail)).filterMap connectionValue ≠ [] →
        (fieldLines f).filterMap connectionValue = [] := by
      intro rest hrest hvalues
      have h := hall _ hrest
      rw [List.flatMap_cons, List.append_assoc, untilBlank_append_of_notMem hblank] at h
      exact values_eq_nil_of_stated h hvalues
    by_cases hend : ∃ g ∈ entries.erase f, [] ∈ fieldLines g
    · obtain ⟨g, hg, hgblank⟩ := hend
      have hsecond : (f :: g :: (entries.erase f).erase g).Perm entries :=
        ((List.perm_cons_erase hg).symm.cons f).trans hfirst
      apply hquiet _ hsecond
      obtain ⟨value, hvalue, -⟩ := hall _ ((List.Perm.swap f g _).trans hsecond)
      rw [List.flatMap_cons, List.append_assoc, untilBlank_append_of_mem hgblank] at hvalue ⊢
      rw [hvalue]
      simp
    · apply hquiet _ hfirst
      have hfree : [] ∉ (entries.erase f).flatMap fieldLines := by
        rw [List.mem_flatMap]
        exact hend
      rw [untilBlank_append_of_notMem hfree, List.filterMap_append]
      exact List.append_ne_nil_of_right_ne_nil _ htail

section Table

/-- Every entry is a plain field under a lower-case name. -/
def PlainTable (h : Headers) : Prop :=
  ∀ f ∈ h.entries, PlainName f.1 ∧ PlainValue f.2 ∧ lower f.1 = f.1

def hasEntry (r : HttpResponse) : Bool := (r.headers.lookup connection).isSome

theorem plainName_lower {name : Bytes} (h : PlainName name) : PlainName (lower name) := by
  have hbyte : ∀ c : UInt8, c ≠ cr ∧ c ≠ colon ∧ isBlank c = false →
      toLower c ≠ cr ∧ toLower c ≠ colon ∧ isBlank (toLower c) = false := by
    decide +kernel
  intro c hc
  obtain ⟨d, hd, rfl⟩ := List.mem_map.mp hc
  exact hbyte d (h d hd)

theorem lower_lower (s : Bytes) : lower (lower s) = lower s := by
  have hbyte : ∀ c : UInt8, toLower (toLower c) = toLower c := by
    decide +kernel
  simp [lower, hbyte]

theorem plainTable_set {h : Headers} {field value : Bytes} (hh : PlainTable h)
    (hfield : PlainName field) (hvalue : PlainValue value) : PlainTable (h.set field value) := by
  intro f hf
  rw [Headers.set, AList.entries_insert, List.mem_cons] at hf
  rcases hf with rfl | hf
  · exact ⟨plainName_lower hfield, hvalue, lower_lower field⟩
  · exact hh f ((List.kerase_sublist _ _).subset hf)

theorem plainTable_add {h : Headers} {field value : Bytes} (hh : PlainTable h)
    (hfield : PlainName field) (hvalue : PlainValue value) : PlainTable (h.add field value) := by
  unfold Headers.add
  split
  · rename_i old hold
    have hkept : PlainValue old := (hh ⟨lower field, old⟩ (AList.mem_lookup_iff.mp hold)).2.1
    have hcomma : cr ∉ ascii ", " := by decide
    have hjoined : PlainValue (old ++ (ascii ", " ++ value)) := by
      unfold PlainValue at hkept hvalue ⊢
      simp only [List.mem_append, not_or]
      exact ⟨hkept, hcomma, hvalue⟩
    exact plainTable_set hh hfield hjoined
  · exact plainTable_set hh hfield hvalue

theorem plainTable_ensureContentLength {r : HttpResponse} (h : PlainTable r.headers) :
    PlainTable r.ensureContentLength.headers := by
  unfold HttpResponse.ensureContentLength
  split_ifs
  · have hname : PlainName (ascii "content-length") := plainName_of_all (by decide)
    exact plainTable_set h hname (cr_notMem_decimal _)
  · exact h

theorem hasEntry_ensureContentLength (r : HttpResponse) :
    hasEntry r.ensureContentLength = hasEntry r := by
  unfold HttpResponse.ensureContentLength
  split_ifs
  · have hne : connection ≠ lower (ascii "content-length") := by decide
    exact congrArg Option.isSome (Headers.lookup_set_ne _ _ hne)
  · rfl

theorem apply_plain {r : HttpResponse} {op : Op} (hop : Plain op) (h : PlainTable r.headers) :
    PlainTable (apply r op).headers := by
  have htype : PlainName (ascii "content-type") := plainName_of_all (by decide)
  have hlocation : PlainName (ascii "location") := plainName_of_all (by decide)
  have hhtml : PlainValue (ascii "text/html; charset=utf-8") := by decide
  cases op with
  | setBody body => exact plainTable_ensureContentLength h
  | appendBody data => exact plainTable_ensureContentLength h
  | clearBody => exact h
  | redirect url code =>
    have hset : PlainTable (r.headers.set (ascii "location") url) := plainTable_set h hlocation hop
    exact plainTable_ensureContentLength (plainTable_set hset htype hhtml)
  | reset => exact fun f hf => absurd hf List.not_mem_nil
  | setStatusCode code => exact h
  | setCloseConnection close => exact h
  | setContentType t => exact plainTable_set h htype hop
  | addHeader field value => exact plainTable_add h hop.1 hop.2
  | setHeader field value => exact plainTable_set h hop.1 hop.2
  | removeHeader field => exact fun f hf => h f ((List.kerase_sublist _ _).subset hf)

theorem isSome_lookup_set (h : Headers) (field value : Bytes) :
    ((h.set field value).lookup connection).isSome =
      ((h.lookup connection).isSome || lower field == connection) := by
  by_cases hf : lower field = connection
  · simp [Headers.set, hf]
  · simp [hf, Headers.lookup_set_ne h value (Ne.symm hf)]

theorem isSome_lookup_add (h : Headers) (field value : Bytes) :
    ((h.add field value).lookup connection).isSome =
      ((h.lookup connection).isSome || lower field == connection) := by
  unfold Headers.add
  split <;> exact isSome_lookup_set h field _

/-- What one operation does to the connection entry. -/
theorem hasEntry_apply (r : HttpResponse) (op : Op) :
    hasEntry (apply r op) = entryAfter (hasEntry r) op := by
  have htype : connection ≠ lower (ascii "content-type") := by decide
  have hlocation : connection ≠ lower (ascii "location") := by decide
  cases op with
  | setBody body => exact hasEntry_ensureContentLength _
  | appendBody data => exact hasEntry_ensureContentLength _
  | clearBody => rfl
  | redirect url code =>
    have htyped := Headers.lookup_set_ne (r.headers.set (ascii "location") url)
      (ascii "text/html; charset=utf-8") htype
    have hlocated := htyped.trans (Headers.lookup_set_ne r.headers url hlocation)
    exact (hasEntry_ensureContentLength _).trans (congrArg Option.isSome hlocated)
  | reset => rfl
  | setStatusCode code => rfl
  | setCloseConnection close => rfl
  | setContentType t => exact congrArg Option.isSome (Headers.lookup_set_ne r.headers t htype)
  | addHeader field value => exact isSome_lookup_add _ _ _
  | setHeader field value => exact isSome_lookup_set _ _ _
  | removeHeader field =>
    by_cases hf : lower field = connection
    · simp [apply, HttpResponse.removeHeader, Headers.remove, hasEntry, entryAfter, hf]
    · simp [apply, HttpResponse.removeHeader, Headers.remove, hasEntry, entryAfter, hf,
        AList.lookup_erase_ne (Ne.symm hf)]

theorem foldl_apply_spec {ops : List Op} (hops : ∀ op ∈ ops, Plain op) {r : HttpResponse}
    (h : PlainTable r.headers) :
    PlainTable (ops.foldl apply r).headers ∧
      hasEntry (ops.foldl apply r) = ops.foldl entryAfter (hasEntry r) := by
  induction ops generalizing r with
  | nil => exact ⟨h, rfl⟩
  | cons op ops ih =>
    have hstep := apply_plain (hops op (by simp)) h
    rw [List.foldl_cons, List.foldl_cons, ← hasEntry_apply]
    exact ih (fun o ho => hops o (by simp [ho])) hstep

theorem unobtrusive_plain {f : Field} {close : Bool} (hname : PlainName f.1)
    (hvalue : PlainValue f.2) : Unobtrusive close f ↔ lower f.1 ≠ connection := by
  have hblank : [] ∉ [fieldText f] := by simpa using (fieldText_ne_nil f).symm
  rw [Unobtrusive, fieldLines_plain hname hvalue, if_neg hblank, List.filterMap_cons,
    connectionValue_fieldText hname]
  by_cases hf : lower f.1 = connection <;> simp [hf]

/-- In a plain table only the connection entry stands in the way. -/
theorem unobtrusive_iff_hasEntry {r : HttpResponse} {close : Bool} (h : PlainTable r.headers) :
    (∀ f ∈ r.headers.entries, Unobtrusive close f) ↔ hasEntry r = false := by
  unfold hasEntry
  rw [Option.isSome_eq_false_iff, Option.isNone_iff_eq_none]
  constructor
  · intro hall
    cases hv : r.headers.lookup connection with
    | none => rfl
    | some value =>
      have hmem : (⟨connection, value⟩ : Field) ∈ r.headers.entries := AList.mem_lookup_iff.mp hv
      have hplain := h _ hmem
      exact absurd hplain.2.2 ((unobtrusive_plain hplain.1 hplain.2.1).mp (hall _ hmem))
  · intro hnone f hf
    have hplain := h f hf
    apply (unobtrusive_plain hplain.1 hplain.2.1).mpr
    intro hconnection
    have hkey : f.1 = connection := hplain.2.2.symm.trans hconnection
    have hv : r.headers.lookup f.1 = some f.2 := AList.mem_lookup_iff.mpr hf
    rw [hkey, hnone] at hv
    simp at hv

end Table

section Server

variable (server : HttpServer) (req : HttpRequest)

theorem prepare_spec : PlainTable (server.prepare req).headers ∧
    hasEntry (server.prepare req) = true := by
  have hserver : PlainTable (Headers.set ∅ (ascii "Server") (ascii "TZZeroHTTP/1.0")) :=
    plainTable_set (fun f hf => absurd hf List.not_mem_nil) (plainName_of_all (by decide)) (by decide)
  have hname : PlainName (ascii "Connection") := plainName_of_all (by decide)
  have hentry : ∀ (h : Headers) value,
      ((h.set (ascii "Connection") value).lookup connection).isSome = true := by
    intro h value
    have hlower : (lower (ascii "Connection") == connection) = true := by decide
    rw [isSome_lookup_set, hlower, Bool.or_true]
  have hopen := plainTable_set hserver hname (by decide : PlainValue (ascii "keep-alive"))
  unfold HttpServer.prepare
  simp only
  split_ifs
  · exact ⟨plainTable_set hserver hname (by decide : PlainValue (ascii "close")), hentry _ _⟩
  · have hkeep : PlainName (ascii "Keep-Alive") := plainName_of_all (by decide)
    have htimeout : PlainValue (ascii "timeout=" ++ signedDecimal server.keepAliveTimeout) := by
      have hlabel : cr ∉ ascii "timeout=" := by decide
      simp only [PlainValue, List.mem_append, not_or]
      exact ⟨hlabel, cr_notMem_signedDecimal _⟩
    refine ⟨plainTable_set hopen hkeep htimeout, (isSome_lookup_set _ _ _).trans ?_⟩
    rw [Bool.or_eq_true]
    exact Or.inl (hentry _ _)
  · exact ⟨hopen, hentry _ _⟩

/-- One response goes out, the one the handler leaves, and its flag decides the shutdown. -/
theorem onRequest_spec : sent (server.onRequest req) = [handled server req] ∧
    (.shutdown ∈ server.onRequest req ↔ (handled server req).closeConnection = true) := by
  unfold HttpServer.onRequest handled sent
  cases server.httpCallback with
  | none => simp only; split_ifs with hclose <;> simp [hclose]
  | some cb => simp only; split_ifs with hclose <;> simp [hclose]

theorem statesFate_iff : StatesFate (server.onRequest req) ↔
    ∀ f ∈ (handled server req).headers.entries,
      Unobtrusive (handled server req).closeConnection f := by
  obtain ⟨hsent, hshutdown⟩ := onRequest_spec server req
  have hown := own_values (handled server req)
  unfold StatesFate
  rw [hsent, propext hshutdown]
  constructor
  · rintro ⟨r, hr, hall⟩
    obtain rfl := List.singleton_injective hr
    apply unobtrusive_of_stated
    · intro order horder
      have h := hall order ⟨0, 1, 0, 1970, 0, 0, 0⟩ horder
      rw [headerSection_toBuffer] at h
      exact h
    · rw [hown]
      simp
  · intro hall
    refine ⟨_, rfl, fun order tm horder => ?_⟩
    rw [headerSection_toBuffer]
    apply stated_of_unobtrusive fun f hf => hall f (horder.mem_iff.mp hf)
    refine ⟨_, hown tm _, ?_⟩
    cases (handled server req).closeConnection <;> decide

variable {server req}

/-- For plain operations on the prepared response, only the connection entry counts. -/
theorem statesFate_iff_ops {ops : List Op} (hplain : ∀ op ∈ ops, Plain op)
    (hhandled : handled server req = ops.foldl apply (server.prepare req)) :
    StatesFate (server.onRequest req) ↔ ops.foldl entryAfter true = false := by
  obtain ⟨htable, hentry⟩ := prepare_spec server req
  obtain ⟨hleft, hhas⟩ := foldl_apply_spec hplain htable
  rw [statesFate_iff, hhandled, unobtrusive_iff_hasEntry hleft, hhas, hentry]

end Server

/-- The bytes state the fate of the connection once and truly exactly when every entry the
handler leaves in the table is unobtrusive; a handler of plain operations achieves that
exactly when the last of them on the connection header takes it out; the default branch
never does. -/
theorem fate_stated_iff (server : HttpServer) (req : HttpRequest) :
    (StatesFate (server.onRequest req) ↔
      ∀ f ∈ (handled server req).headers.entries,
        Unobtrusive (handled server req).closeConnection f) ∧
    (∀ handler : HttpRequest → HttpResponse → List Op,
      server.httpCallback = some (performing handler) →
      (∀ op ∈ handler req (server.prepare req), Plain op) →
      (StatesFate (server.onRequest req) ↔
        (handler req (server.prepare req)).foldl entryAfter true = false)) ∧
    (server.httpCallback = none → ¬ StatesFate (server.onRequest req)) := by
  refine ⟨statesFate_iff server req, ?_, ?_⟩
  · intro handler hcallback hplain
    apply statesFate_iff_ops hplain
    unfold handled
    rw [hcallback]
    rfl
  · intro hcallback
    have hhtml : PlainValue (ascii "text/html; charset=utf-8") := by decide
    let ops : List Op := [.setStatusCode .notFound,
      .setContentType (ascii "text/html; charset=utf-8"), .setBody notFoundBody]
    have hplain : ∀ op ∈ ops, Plain op := by simp [ops, Plain, hhtml]
    have hhandled : handled server req = ops.foldl apply (server.prepare req) := by
      unfold handled
      rw [hcallback]
      rfl
    rw [statesFate_iff_ops hplain hhandled]
    simp [ops, entryAfter]

def getRequest : HttpRequest := { method := .get, path := ascii "/", version := .http11 }

/-- A handler that takes the server's connection header out again is answered with one. -/
theorem fate_stated_removed :
    let server : HttpServer := { httpCallback := some (performing fun _ _ =>
      [.setBody (ascii "Hello"), .removeHeader (ascii "Connection")]) }
    StatesFate (server.onRequest getRequest) :=
  ((fate_stated_iff _ getRequest).2.1 _ rfl (by simp [Plain])).mpr (by decide)

/-- The default answer to a kept connection says so twice. -/
theorem fate_stated_twice :
    ¬ ∀ (server : HttpServer) (req : HttpRequest), StatesFate (server.onRequest req) := by
  intro h
  obtain ⟨r, hr, hall⟩ := h {} getRequest
  obtain rfl := List.singleton_injective ((onRequest_spec {} getRequest).1.symm.trans hr)
  obtain ⟨value, hone, -⟩ := hall _ ⟨4, 1, 0, 1970, 0, 0, 0⟩ (List.Perm.refl _)
  have htwo : (headerSection (toBuffer (handled {} getRequest)
      (handled {} getRequest).headers.entries (strftime ⟨4, 1, 0, 1970, 0, 0, 0⟩))).filterMap
        connectionValue = [ascii "keep-alive", ascii "keep-alive"] := by decide
  simp [htwo] at hone

end TzzeroHttp.ResponseConnection
