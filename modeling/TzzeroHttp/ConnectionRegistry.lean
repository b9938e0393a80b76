import TzzeroHttp.ByteText
import TzzeroHttp.Runs

/-! The server's table of connections. A connection is entered under a name that is made from the
server's name, the listen address and a counter, through a fixed buffer, and is erased under the
name it was given. -/
namespace TzzeroHttp.ConnectionRegistry
open ByteText Runs

/-- What a `const char*` to these bytes stands for. -/
def cString (s : Bytes) : Bytes := s.takeWhile (· != 0)

/-- `snprintf` into a buffer of the given size, which keeps room for the terminator. -/
def snprintf (size : ℕ) (formatted : Bytes) : Bytes := formatted.take (size - 1)

/-- Connections are numbered as they are accepted; `names` are their names in that order.
`overwritten` counts the assignments to a name that was in the table, `erased` is what each
`erase` returned. -/
structure TcpServer where
  name : Bytes
  ipPort : Bytes
  nextConnId : ℤ := 1
  connections : Bytes → Option ℕ := fun _ => none
  names : List Bytes := []
  removed : List ℕ := []
  overwritten : ℕ := 0
  erased : List ℕ := []

namespace TcpServer

def new (listenAddr : Bytes) (port : UInt16) (name : Bytes) : TcpServer :=
  { name := name, ipPort := listenAddr ++ ascii ":" ++ decimal port.toNat }

def connName (s : TcpServer) : Bytes :=
  s.name ++ cString (snprintf 64
    (ascii "-" ++ cString s.ipPort ++ ascii "#" ++ signedDecimal s.nextConnId))

/-- The counter is a 32-bit `int`. -/
def newConnection (s : TcpServer) : TcpServer :=
  { s with
    nextConnId := (s.nextConnId + 1).bmod (2 ^ 32)
    connections := Function.update s.connections s.connName (some s.names.length)
    names := s.names ++ [s.connName]
    overwritten := s.overwritten + if (s.connections s.connName).isSome then 1 else 0 }

/-- `remove_connection_in_loop` of the connection with this number and name. -/
def removeConnectionInLoop (s : TcpServer) (conn : ℕ) (name : Bytes) : TcpServer :=
  { s with
    connections := Function.update s.connections name none
    removed := s.removed ++ [conn]
    erased := s.erased ++ [if (s.connections name).isSome then 1 else 0] }

end TcpServer

inductive Label
  | newConnection
  | removeConnection (conn : ℕ)
  deriving DecidableEq

/-- An accepted connection is removed at most once. -/
def step (s : TcpServer) : Label → Option TcpServer
  | .newConnection => some s.newConnection
  | .removeConnection conn =>
    match s.names[conn]? with
    | none => none
    | some name => if conn ∈ s.removed then none else some (s.removeConnectionInLoop conn name)

def removals (labels : List Label) : List ℕ :=
  labels.filterMap fun
    | .newConnection => none
    | .removeConnection conn => some conn

def DottedQuad (addr : Bytes) : Prop :=
  ∃ a b c d : Bytes, (∀ g ∈ [a, b, c, d], 1 ≤ g.length ∧ g.length ≤ 3 ∧ ∀ x ∈ g, isDigit x = true) ∧
    addr = a ++ ascii "." ++ b ++ ascii "." ++ c ++ ascii "." ++ d

def fullName (s : TcpServer) (n : ℕ) : Bytes :=
  s.name ++ (ascii "-" ++ s.ipPort ++ ascii "#" ++ decimal (n + 1))

theorem cString_eq_self {s : Bytes} (h : ∀ x ∈ s, x ≠ 0) : cString s = s := by
  apply List.takeWhile_eq_self_iff.mpr
  intro x hx
  simpa using h x hx

theorem digit_ne_zero {x : UInt8} (h : isDigit x = true) : x ≠ 0 := by
  rintro rfl
  cases h

theorem fullName_injective (s : TcpServer) : Function.Injective (fullName s) := by
  intro i j h
  have hdecimal : decimal (i + 1) = decimal (j + 1) := by
    have htail := List.append_cancel_left h
    exact List.append_cancel_left htail
  have hsucc := decimal_injective hdecimal
  omega

theorem ipPort_bounds {addr : Bytes} (h : DottedQuad addr) (port : UInt16) (name : Bytes) :
    let ipPort := (TcpServer.new addr port name).ipPort
    ipPort.length ≤ 21 ∧ ∀ x ∈ ipPort, x ≠ 0 := by
  obtain ⟨a, b, c, d, hgroups, rfl⟩ := h
  have hport : (decimal port.toNat).length ≤ 5 :=
    decimal_length_le (by norm_num) (lt_of_lt_of_le port.toNat_lt (by norm_num))
  have hlength : ∀ g ∈ [a, b, c, d], g.length ≤ 3 := fun g hg => (hgroups g hg).2.1
  have hdigit : ∀ g ∈ [a, b, c, d], ∀ x ∈ g, x ≠ 0 :=
    fun g hg x hx => digit_ne_zero ((hgroups g hg).2.2 x hx)
  simp only [List.mem_cons, List.not_mem_nil, or_false, forall_eq_or_imp, forall_eq] at hlength hdigit
  have hdot : (ascii ".").length = 1 ∧ ∀ x ∈ ascii ".", x ≠ 0 := by decide +kernel
  have hcolon : (ascii ":").length = 1 ∧ ∀ x ∈ ascii ":", x ≠ 0 := by decide +kernel
  refine ⟨?_, ?_⟩
  · simp only [TcpServer.new, List.length_append]
    omega
  · intro x hx
    simp only [TcpServer.new, List.mem_append] at hx
    rcases hx with ((((((((hx | hx) | hx) | hx) | hx) | hx) | hx) | hx) | hx)
    · exact hdigit.1 x hx
    · exact hdot.2 x hx
    · exact hdigit.2.1 x hx
    · exact hdot.2 x hx
    · exact hdigit.2.2.1 x hx
    · exact hdot.2 x hx
    · exact hdigit.2.2.2 x hx
    · exact hcolon.2 x hx
    · exact digit_ne_zero (decimal_isDigit hx)

/-- The buffer holds the whole text of every connection below the counter's limit. -/
theorem connName_eq {s : TcpServer} {n : ℕ} (hlength : s.ipPort.length ≤ 21)
    (hchars : ∀ x ∈ s.ipPort, x ≠ 0) (hcounter : s.nextConnId = n + 1) (hn : n + 1 < 2 ^ 31) :
    s.connName = fullName s n := by
  have hnumber : signedDecimal s.nextConnId = decimal (n + 1) := by
    rw [hcounter, signedDecimal, if_neg (by omega)]
    rfl
  have hdigits : (decimal (n + 1)).length ≤ 10 :=
    decimal_length_le (by norm_num) (hn.trans (by norm_num))
  have hdash : (ascii "-").length = 1 ∧ ∀ x ∈ ascii "-", x ≠ 0 := by decide +kernel
  have hhash : (ascii "#").length = 1 ∧ ∀ x ∈ ascii "#", x ≠ 0 := by decide +kernel
  rw [TcpServer.connName, fullName, hnumber, cString_eq_self hchars, snprintf,
    List.take_of_length_le (by simp only [List.length_append]; omega), cString_eq_self]
  intro x hx
  simp only [List.mem_append] at hx
  rcases hx with ((hx | hx) | hx) | hx
  · exact hdash.2 x hx
  · exact hchars x hx
  · exact hhash.2 x hx
  · exact digit_ne_zero (decimal_isDigit hx)

/-- The table holds the connections that are accepted and not removed, each under its full name. -/
structure Exact (s : TcpServer) : Prop where
  length : s.ipPort.length ≤ 21
  chars : ∀ x ∈ s.ipPort, x ≠ 0
  counter : s.nextConnId = s.names.length + 1
  named : ∀ c name, s.names[c]? = some name ↔ c < s.names.length ∧ name = fullName s c
  known : ∀ c ∈ s.removed, c < s.names.length
  table : ∀ name c, s.connections name = some c ↔ s.names[c]? = some name ∧ c ∉ s.removed
  overwritten : s.overwritten = 0
  erased : ∀ k ∈ s.erased, k = 1

variable {s s' : TcpServer}

theorem Exact.fresh (h : Exact s) (hn : s.names.length + 1 < 2 ^ 31) :
    s.connName = fullName s s.names.length ∧ s.connections s.connName = none := by
  have hname := connName_eq h.length h.chars h.counter hn
  refine ⟨hname, ?_⟩
  cases hfound : s.connections s.connName with
  | none => rfl
  | some c =>
    obtain ⟨hlt, heq⟩ := (h.named _ _).mp ((h.table _ c).mp hfound).1
    rw [hname] at heq
    have hc := fullName_injective s heq
    omega

theorem Exact.names_nodup (h : Exact s) : s.names.Nodup := by
  apply List.nodup_iff_getElem?_ne_getElem?.mpr
  intro i j hij hj heq
  have hi : i < s.names.length := by omega
  have hfull := ((h.named i _).mp (List.getElem?_eq_getElem hi)).2
  have hfull' := ((h.named j _).mp (List.getElem?_eq_getElem hj)).2
  rw [List.getElem?_eq_getElem hi, List.getElem?_eq_getElem hj, Option.some.injEq] at heq
  rw [hfull, hfull'] at heq
  have hij' := fullName_injective s heq
  omega

/-- The names with the new one. -/
theorem newConnection_named (h : Exact s) (hname : s.connName = fullName s s.names.length) (c : ℕ)
    (name : Bytes) :
    s.newConnection.names[c]? = some name ↔ c < s.names.length + 1 ∧ name = fullName s c := by
  simp only [TcpServer.newConnection, List.getElem?_append]
  split_ifs with hc
  · rw [h.named]
    exact and_congr_left fun _ => by omega
  · rw [List.getElem?_singleton]
    split_ifs with hlast
    · have hcn : c = s.names.length := by omega
      rw [hcn, ← hname]
      simp [eq_comm]
    · simp
      omega

theorem newConnection_length (s : TcpServer) :
    s.newConnection.names.length = s.names.length + 1 := by
  simp [TcpServer.newConnection]

theorem newConnection_table (h : Exact s) (hname : s.connName = fullName s s.names.length)
    (name : Bytes) (c : ℕ) :
    s.newConnection.connections name = some c ↔
      s.newConnection.names[c]? = some name ∧ c ∉ s.removed := by
  have hnew : s.names.length ∉ s.removed := fun hmem => lt_irrefl _ (h.known _ hmem)
  rw [newConnection_named h hname]
  by_cases heq : name = s.connName
  · subst heq
    have hc : c < s.names.length + 1 ∧ s.connName = fullName s c ↔ s.names.length = c := by
      rw [hname, (fullName_injective s).eq_iff]
      omega
    rw [hc]
    simp only [TcpServer.newConnection, Function.update_self, Option.some.injEq]
    constructor
    · rintro rfl
      exact ⟨rfl, hnew⟩
    · exact And.left
  · have hc : name = fullName s c → c ≠ s.names.length := by
      rintro rfl rfl
      exact heq hname.symm
    simp only [TcpServer.newConnection, Function.update_of_ne heq]
    rw [h.table, h.named]
    constructor
    · rintro ⟨⟨hlt, hfull⟩, hremoved⟩
      exact ⟨⟨by omega, hfull⟩, hremoved⟩
    · rintro ⟨⟨hlt, hfull⟩, hremoved⟩
      have hne := hc hfull
      exact ⟨⟨by omega, hfull⟩, hremoved⟩

theorem newConnection_exact (h : Exact s) (hn : s.names.length + 1 < 2 ^ 31 - 1) :
    Exact s.newConnection := by
  obtain ⟨hname, hfree⟩ := h.fresh (by omega)
  have hlen := newConnection_length s
  refine ⟨h.length, h.chars, ?_, ?_, ?_, newConnection_table h hname, ?_, h.erased⟩
  · rw [hlen]
    simp only [TcpServer.newConnection, h.counter]
    rw [Int.bmod_eq_of_le] <;> push_cast <;> omega
  · rw [hlen]
    exact newConnection_named h hname
  · intro c hc
    have hlt := h.known c hc
    omega
  · simp [TcpServer.newConnection, hfree, h.overwritten]

theorem removeConnection_exact (h : Exact s) {c : ℕ} {name : Bytes} (hc : s.names[c]? = some name)
    (hnot : c ∉ s.removed) : Exact (s.removeConnectionInLoop c name) := by
  have hfound : s.connections name = some c := (h.table name c).mpr ⟨hc, hnot⟩
  refine ⟨h.length, h.chars, h.counter, h.named, ?_, ?_, h.overwritten, ?_⟩
  · intro d hd
    rcases List.mem_append.mp hd with hd | hd
    · exact h.known d hd
    · rw [List.mem_singleton.mp hd]
      exact ((h.named c name).mp hc).1
  · intro name' d
    simp only [TcpServer.removeConnectionInLoop]
    by_cases heq : name' = name
    · subst heq
      have hsame : s.names[d]? = some name' → d = c := by
        intro hd
        have hfull := ((h.named d name').mp hd).2
        rw [((h.named c name').mp hc).2] at hfull
        exact (fullName_injective s hfull).symm
      simp only [Function.update_self, reduceCtorEq, false_iff, not_and, not_not]
      intro hd
      simp [hsame hd]
    · have hother : s.names[d]? = some name' → d ≠ c := by
        rintro hd rfl
        exact heq (Option.some.inj (hd.symm.trans hc))
      rw [Function.update_of_ne heq, h.table]
      constructor
      · rintro ⟨hd, hremoved⟩
        exact ⟨hd, by simp [hremoved, hother hd]⟩
      · rintro ⟨hd, hremoved⟩
        exact ⟨hd, fun hmem => hremoved (by simp [hmem])⟩
  · intro k hk
    rcases List.mem_append.mp hk with hk | hk
    · exact h.erased k hk
    · simpa [hfound] using hk

theorem step_removeConnection {c : ℕ} (h : step s (.removeConnection c) = some s') :
    ∃ name, s.names[c]? = some name ∧ c ∉ s.removed ∧ s' = s.removeConnectionInLoop c name := by
  simp only [step] at h
  split at h
  · cases h
  · next name hc =>
    split_ifs at h with hremoved
    exact ⟨name, hc, hremoved, (Option.some.inj h).symm⟩

theorem new_exact {addr : Bytes} (haddr : DottedQuad addr) (port : UInt16) (name : Bytes) :
    Exact (TcpServer.new addr port name) := by
  obtain ⟨hlength, hchars⟩ := ipPort_bounds haddr port name
  exact ⟨hlength, hchars, rfl, by simp [TcpServer.new], by simp [TcpServer.new],
    by simp [TcpServer.new], rfl, by simp [TcpServer.new]⟩

theorem run_exact {labels : List Label} (h : Exact s) (hrun : run step s labels = some s')
    (hn : s.names.length + labels.count .newConnection < 2 ^ 31 - 1) :
    Exact s' ∧ fullName s' = fullName s := by
  induction labels generalizing s with
  | nil =>
    obtain rfl := Option.some.inj hrun
    exact ⟨h, rfl⟩
  | cons l labels ih =>
    obtain ⟨s₁, hstep, hrest⟩ := run_cons.mp hrun
    cases l with
    | newConnection =>
      obtain rfl := Option.some.inj hstep
      rw [List.count_cons_self] at hn
      have hlen := newConnection_length s
      obtain ⟨h', hfull⟩ := ih (newConnection_exact h (by omega)) hrest (by omega)
      exact ⟨h', hfull⟩
    | removeConnection c =>
      rw [List.count_cons_of_ne (by simp)] at hn
      obtain ⟨name, hc, hremoved, rfl⟩ := step_removeConnection hstep
      obtain ⟨h', hfull⟩ := ih (removeConnection_exact h hc hremoved) hrest hn
      exact ⟨h', hfull⟩

/-- What a run adds to the records is what its labels say. -/
theorem run_records {labels : List Label} (hrun : run step s labels = some s') :
    s'.names.length = s.names.length + labels.count .newConnection ∧
      s'.removed = s.removed ++ removals labels ∧
      s'.erased.length = s.erased.length + (removals labels).length := by
  induction labels generalizing s with
  | nil =>
    obtain rfl := Option.some.inj hrun
    simp [removals]
  | cons l labels ih =>
    obtain ⟨s₁, hstep, hrest⟩ := run_cons.mp hrun
    obtain ⟨hnames, hremoved, herased⟩ := ih hrest
    cases l with
    | newConnection =>
      obtain rfl := Option.some.inj hstep
      rw [newConnection_length] at hnames
      refine ⟨?_, hremoved, herased⟩
      rw [hnames, List.count_cons_self]
      omega
    | removeConnection c =>
      obtain ⟨name, -, -, rfl⟩ := step_removeConnection hstep
      have hsplit : removals (.removeConnection c :: labels) = c :: removals labels := rfl
      simp only [TcpServer.removeConnectionInLoop, List.length_append, List.length_singleton,
        List.append_assoc, List.singleton_append] at hnames hremoved herased
      rw [hsplit, List.count_cons_of_ne (by simp), List.length_cons]
      exact ⟨hnames, hremoved, by omega⟩

/-- In every run that accepts fewer than 2^31 - 1 connections: the names are distinct and never
cut short, the table maps the names of the accepted and not removed connections to these and
nothing else, no entry was overwritten, and every `erase` took one entry. Each accepted connection
has been given a name, and each removal has erased. -/
theorem registry_exact (addr : Bytes) (port : UInt16) (name : Bytes) (labels : List Label)
    (s : TcpServer) (haddr : DottedQuad addr)
    (hrun : run step (TcpServer.new addr port name) labels = some s)
    (hn : labels.count .newConnection < 2 ^ 31 - 1) :
    s.names.Nodup ∧
      (∀ c conn, s.names[c]? = some conn → conn =
        name ++ (ascii "-" ++ (addr ++ ascii ":" ++ decimal port.toNat) ++ ascii "#" ++ decimal (c + 1))) ∧
      (∀ conn c, s.connections conn = some c ↔ s.names[c]? = some conn ∧ c ∉ s.removed) ∧
      s.overwritten = 0 ∧ (∀ k ∈ s.erased, k = 1) ∧
      s.names.length = labels.count .newConnection ∧ s.removed = removals labels ∧
      s.erased.length = (removals labels).length := by
  obtain ⟨h, hfullName⟩ :=
    run_exact (new_exact haddr port name) hrun (by simpa [TcpServer.new] using hn)
  have hrecords := run_records hrun
  simp only [TcpServer.new, List.length_nil, Nat.zero_add, List.nil_append] at hrecords
  refine ⟨h.names_nodup, fun c conn hc => ?_, h.table, h.overwritten, h.erased, hrecords⟩
  rw [((h.named c conn).mp hc).2, hfullName]
  rfl

/-- Three connections, of which the second is removed before the third is accepted. -/
theorem registry_exact_three :
    let labels : List Label := [.newConnection, .newConnection, .removeConnection 1, .newConnection,
      .removeConnection 0]
    ∃ s, run step (TcpServer.new (ascii "127.0.0.1") 8080 (ascii "http")) labels = some s ∧
      s.erased = [1, 1] ∧ s.connections (ascii "http-127.0.0.1:8080#3") = some 2 ∧ s.names.Nodup := by
  intro labels
  have hquad : DottedQuad (ascii "127.0.0.1") :=
    ⟨ascii "127", ascii "0", ascii "0", ascii "1", by decide +kernel, by decide +kernel⟩
  have hend : (run step (TcpServer.new (ascii "127.0.0.1") 8080 (ascii "http")) labels).map
      (fun s => (s.erased, s.connections (ascii "http-127.0.0.1:8080#3"))) = some ([1, 1], some 2) := by
    decide
  obtain ⟨s, hs, hresult⟩ := Option.map_eq_some_iff.mp hend
  obtain ⟨herased, hentry⟩ := Prod.mk.inj hresult
  exact ⟨s, hs, herased, hentry, (registry_exact _ _ _ labels s hquad hs (by decide)).1⟩

end TzzeroHttp.ConnectionRegistry
