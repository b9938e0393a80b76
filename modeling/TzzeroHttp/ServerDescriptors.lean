import TzzeroHttp.TcpServerModel

/-! The descriptors of accepted sockets. Nothing that a connection goes through, from its close
to `~TcpConnection`, passes its socket to `::close`: the sockets that are open are those of all
connections ever made, the destroyed ones among them. -/
namespace TzzeroHttp.ServerDescriptors
open ConnectionModel TcpServerModel Runs

/-- The socket of a connection that was closed, erased and destroyed has been closed once. -/
def ClosedOnce (s : TcpServer) : Prop :=
  ∀ m ∈ s.members, m.destroyed = true → m.world.state = .disconnected → m.world.entries = 0 →
    s.closed.count m.socket = 1

def OpenExactly (s : TcpServer) : Prop :=
  ∀ k, (∃ fd, s.table fd = some k) ↔ ∃ m ∈ s.members, m.socket = k ∧ m.destroyed = false

/-- What the kernel and the server know of sockets; no move of a connection changes it. -/
structure Files where
  table : Fd → Option SocketId
  accepted : ℕ
  closed : List SocketId
  held : List (Fd × SocketId)

def files (s : TcpServer) : Files :=
  ⟨s.table, s.accepted, s.closed, s.members.map fun m => (m.fd, m.socket)⟩

/-- The open sockets are those of the connections, each of them once, and none was closed. -/
structure Held (f : Files) : Prop where
  table_iff : ∀ fd k, f.table fd = some k ↔ (fd, k) ∈ f.held
  fresh : ∀ p ∈ f.held, p.2 < f.accepted
  closed_fresh : ∀ k ∈ f.closed, k < f.accepted
  distinct : (f.held.map Prod.snd).Nodup
  unclosed : ∀ p ∈ f.held, p.2 ∉ f.closed

variable {s s' : TcpServer}

/-- What an operation on a connection keeps. -/
def Keeps (m m' : Member) : Prop := m'.fd = m.fd ∧ m'.socket = m.socket ∧ m'.destroyed = m.destroyed

theorem keeps_establish {m m' : Member} (h : m.establish = some m') : Keeps m m' := by
  obtain ⟨-, rfl⟩ := guard_eq_some h
  exact ⟨rfl, rfl, rfl⟩

theorem keeps_act {alive : Bool} {a : Act} {m m' : Member} (h : m.act alive a = some m') : Keeps m m' := by
  obtain ⟨-, h⟩ := Option.ite_none_right_eq_some.mp h
  obtain ⟨w, -, h⟩ := Option.bind_eq_some_iff.mp h
  obtain ⟨-, rfl⟩ := guard_eq_some h
  exact ⟨rfl, rfl, rfl⟩

theorem keeps_serverGone (m : Member) : Keeps m m.serverGone := by
  unfold Member.serverGone
  split_ifs
  · exact ⟨rfl, rfl, rfl⟩
  · exact ⟨rfl, rfl, rfl⟩

theorem keeps_loopEnds {alive : Bool} {m m' : Member} (h : m.loopEnds alive = some m') : Keeps m m' := by
  obtain ⟨-, rfl⟩ := guard_eq_some h
  exact ⟨rfl, rfl, rfl⟩

theorem keeps_serverLoopEnds (m : Member) : Keeps m m.serverLoopEnds := by
  unfold Member.serverLoopEnds
  split <;> exact ⟨rfl, rfl, rfl⟩

/-- A projection of the members that the operation keeps is kept in the list. -/
theorem onMember_map {α : Type*} {f : Member → Option Member} {g : Member → α} {i : ℕ}
    (hf : ∀ m m', f m = some m' → g m' = g m) (h : s.onMember i f = some s') :
    s'.members.map g = s.members.map g ∧ s' = { s with members := s'.members } := by
  obtain ⟨m, hm, h⟩ := Option.bind_eq_some_iff.mp h
  obtain ⟨m', hm', rfl⟩ := Option.map_eq_some_iff.mp h
  refine ⟨?_, rfl⟩
  obtain ⟨hi, rfl⟩ := List.getElem?_eq_some_iff.mp hm
  refine List.ext_getElem (by simp) fun j hj hj' => ?_
  simp only [List.getElem_map, List.getElem_set]
  split_ifs with hij
  · subst hij
    exact hf _ _ hm'
  · rfl

def marks (s : TcpServer) : List Bool := s.members.map Member.destroyed

theorem onMember_files {f : Member → Option Member} {i : ℕ} (hf : ∀ m m', f m = some m' → Keeps m m')
    (h : s.onMember i f = some s') : files s' = files s ∧ marks s' = marks s := by
  have hheld := onMember_map (g := fun m => (m.fd, m.socket))
    (fun m m' hm => by simp [(hf m m' hm).1, (hf m m' hm).2.1]) h
  have hmarks := onMember_map (g := Member.destroyed) (fun m m' hm => (hf m m' hm).2.2) h
  refine ⟨?_, hmarks.1⟩
  rw [hheld.2]
  simp [files, hheld.1]

theorem map_files {f : Member → Member} (hf : ∀ m, Keeps m (f m)) (alive : Bool) :
    files { s with alive := alive, members := s.members.map f } = files s ∧
      marks { s with alive := alive, members := s.members.map f } = marks s := by
  have hheld : ∀ m, ((f m).fd, (f m).socket) = (m.fd, m.socket) := fun m => by
    simp [(hf m).1, (hf m).2.1]
  have hmarks : ∀ m, (f m).destroyed = m.destroyed := fun m => (hf m).2.2
  simp [files, marks, hheld, hmarks, Function.comp_def]

theorem destroyConnection_files {i : ℕ} (h : s.onMember i Member.destroy = some s') :
    files s' = files s ∧ true ∈ marks s' := by
  have hheld := onMember_map (g := fun m => (m.fd, m.socket))
    (fun m m' hm => by obtain ⟨-, rfl⟩ := guard_eq_some hm; rfl) h
  refine ⟨by rw [hheld.2]; simp [files, hheld.1], ?_⟩
  obtain ⟨m, hm, h⟩ := Option.bind_eq_some_iff.mp h
  obtain ⟨m', hm', rfl⟩ := Option.map_eq_some_iff.mp h
  obtain ⟨-, rfl⟩ := guard_eq_some hm'
  obtain ⟨hi, -⟩ := List.getElem?_eq_some_iff.mp hm
  exact List.mem_map.mpr ⟨_, List.mem_set hi _, rfl⟩

theorem step_files {l : Label} (h : step s l = some s') :
    (∃ fd config initial, l = .newConnection fd config initial ∧ s.table fd = none ∧
      s' = s.newConnection fd config initial) ∨
    (∃ fd, l = .rejectConnection fd ∧ s.table fd = none ∧ s' = (s.accept fd).close fd) ∨
    (∃ i, l = .destroyConnection i ∧ files s' = files s ∧ true ∈ marks s') ∨
    ((∀ i, l ≠ .destroyConnection i) ∧ files s' = files s ∧ marks s' = marks s) := by
  cases l with
  | newConnection fd config initial =>
    obtain ⟨⟨-, hfree, -⟩, rfl⟩ := guard_eq_some h
    exact .inl ⟨fd, config, initial, rfl, hfree, rfl⟩
  | rejectConnection fd =>
    obtain ⟨⟨-, hfree⟩, rfl⟩ := guard_eq_some h
    exact .inr (.inl ⟨fd, rfl, hfree, rfl⟩)
  | destroyConnection i => exact .inr (.inr (.inl ⟨i, rfl, destroyConnection_files h⟩))
  | establish i => exact .inr (.inr (.inr ⟨by simp, onMember_files (fun _ _ => keeps_establish) h⟩))
  | act i a => exact .inr (.inr (.inr ⟨by simp, onMember_files (fun _ _ => keeps_act) h⟩))
  | loopEnds i => exact .inr (.inr (.inr ⟨by simp, onMember_files (fun _ _ => keeps_loopEnds) h⟩))
  | destroyServer =>
    obtain ⟨-, rfl⟩ := guard_eq_some h
    exact .inr (.inr (.inr ⟨by simp, map_files keeps_serverGone false⟩))
  | serverLoopEnds =>
    obtain ⟨-, rfl⟩ := guard_eq_some h
    exact .inr (.inr (.inr ⟨by simp, map_files keeps_serverLoopEnds s.alive⟩))

theorem newConnection_files (fd : Fd) (config : Config) (initial : ℕ) :
    files (s.newConnection fd config initial) = ⟨Function.update s.table fd (some s.accepted),
      s.accepted + 1, s.closed, (files s).held ++ [(fd, s.accepted)]⟩ ∧
    marks (s.newConnection fd config initial) = marks s ++ [false] := by
  unfold TcpServer.newConnection
  cases config.closeCallback <;> simp [files, marks, TcpServer.accept]

theorem newConnection_held {f : Files} (h : Held f) {fd : Fd} (hfree : f.table fd = none) :
    Held ⟨Function.update f.table fd (some f.accepted), f.accepted + 1, f.closed,
      f.held ++ [(fd, f.accepted)]⟩ where
  table_iff fd' k := by
    by_cases hfd : fd' = fd
    · subst hfd
      have hno : (fd', k) ∉ f.held := by
        rw [← h.table_iff, hfree]
        simp
      simp [hno, eq_comm]
    · simp [h.table_iff, hfd]
  fresh p hp := by
    rcases List.mem_append.mp hp with hp | hp
    · exact Nat.lt_succ_of_lt (h.fresh p hp)
    · obtain rfl := List.mem_singleton.mp hp
      exact Nat.lt_succ_self _
  closed_fresh k hk := Nat.lt_succ_of_lt (h.closed_fresh k hk)
  distinct := by
    have hnew : f.accepted ∉ f.held.map Prod.snd := by
      intro hmem
      obtain ⟨p, hp, heq⟩ := List.mem_map.mp hmem
      exact (h.fresh p hp).ne heq
    rw [List.map_append]
    exact List.nodup_append'.mpr ⟨h.distinct, List.nodup_singleton _, by simpa using hnew⟩
  unclosed p hp hk := by
    rcases List.mem_append.mp hp with hp | hp
    · exact h.unclosed p hp hk
    · obtain rfl := List.mem_singleton.mp hp
      exact lt_irrefl _ (h.closed_fresh _ hk)

theorem rejectConnection_held (h : Held (files s)) {fd : Fd} (hfree : s.table fd = none) :
    Held (files ((s.accept fd).close fd)) := by
  have htable : ((s.accept fd).close fd).table = s.table := by
    funext fd'
    by_cases hfd : fd' = fd
    · subst hfd
      simp [TcpServer.close, hfree]
    · simp [TcpServer.close, TcpServer.accept, hfd]
  have hclosed : ((s.accept fd).close fd).closed = s.closed ++ [s.accepted] := by
    simp [TcpServer.close, TcpServer.accept]
  refine ⟨?_, fun p hp => Nat.lt_succ_of_lt (h.fresh p hp), ?_, h.distinct, ?_⟩
  · intro fd' k
    show ((s.accept fd).close fd).table fd' = some k ↔ _
    rw [htable]
    exact h.table_iff fd' k
  · intro k hk
    have hk : k ∈ s.closed ++ [s.accepted] := hclosed ▸ hk
    rcases List.mem_append.mp hk with hk | hk
    · exact Nat.lt_succ_of_lt (h.closed_fresh k hk)
    · obtain rfl := List.mem_singleton.mp hk
      exact Nat.lt_succ_self _
  · intro p hp hk
    have hk : p.2 ∈ s.closed ++ [s.accepted] := hclosed ▸ hk
    rcases List.mem_append.mp hk with hk | hk
    · exact h.unclosed p hp hk
    · exact (h.fresh p hp).ne (List.mem_singleton.mp hk)

theorem step_held {l : Label} (h : Held (files s)) (hstep : step s l = some s') : Held (files s') := by
  rcases step_files hstep with ⟨fd, config, initial, -, hfree, rfl⟩ | ⟨fd, -, hfree, rfl⟩ |
    ⟨i, -, hfiles, -⟩ | ⟨-, hfiles, -⟩
  · rw [(newConnection_files fd config initial).1]
    exact newConnection_held h hfree
  · exact rejectConnection_held h hfree
  · rwa [hfiles]
  · rwa [hfiles]

theorem step_marks {l : Label} (hstep : step s l = some s') :
    true ∈ marks s' ↔ true ∈ marks s ∨ ∃ i, l = .destroyConnection i := by
  rcases step_files hstep with ⟨fd, config, initial, rfl, -, rfl⟩ | ⟨fd, rfl, -, rfl⟩ |
    ⟨i, rfl, -, hmark⟩ | ⟨hl, -, hmarks⟩
  · simp [(newConnection_files fd config initial).2]
  · simp [marks, TcpServer.close, TcpServer.accept]
  · simp [hmark]
  · simp [hmarks, hl]

theorem run_marks {labels : List Label} (hrun : run step s labels = some s') :
    true ∈ marks s' ↔ true ∈ marks s ∨ ∃ i, .destroyConnection i ∈ labels := by
  induction labels generalizing s with
  | nil =>
    obtain rfl := Option.some.inj hrun
    simp
  | cons l labels ih =>
    obtain ⟨s₁, h₁, h₂⟩ := run_cons.mp hrun
    rw [ih h₂, step_marks h₁, or_assoc, ← exists_or]
    simp only [List.mem_cons, eq_comm]

theorem initial_held : Held (files {}) := by
  constructor <;> simp [files]

/-- A socket of a connection is open and was never closed, whatever became of the connection. -/
theorem member_open (h : Held (files s)) {m : Member} (hm : m ∈ s.members) :
    s.table m.fd = some m.socket ∧ m.socket ∉ s.closed := by
  have hheld : (m.fd, m.socket) ∈ (files s).held := List.mem_map_of_mem hm
  exact ⟨(h.table_iff _ _).mpr hheld, h.unclosed _ hheld⟩

theorem socket_inj (h : Held (files s)) {m m' : Member} (hm : m ∈ s.members) (hm' : m' ∈ s.members)
    (heq : m.socket = m'.socket) : m = m' := by
  have hnodup := h.distinct
  simp only [files, List.map_map] at hnodup
  exact List.inj_on_of_nodup_map hnodup hm hm' heq

/-- Over every run of the server: destroyed connections have their socket closed once and the
open sockets are those of the others exactly when no connection is destroyed at all. -/
theorem sockets_closed_iff (labels : List Label) (s : TcpServer) (hrun : run step {} labels = some s) :
    (ClosedOnce s ∧ OpenExactly s) ↔ ∀ i, .destroyConnection i ∉ labels := by
  have hheld : Held (files s) := run_preserves (fun _ _ _ h hs => step_held h hs) initial_held hrun
  have hmarks : true ∈ marks s ↔ ∃ i, .destroyConnection i ∈ labels := by
    rw [run_marks hrun]
    simp [marks]
  rw [← not_exists, ← hmarks]
  constructor
  · rintro ⟨-, hopen⟩ hmark
    obtain ⟨m, hm, hdestroyed⟩ := List.mem_map.mp hmark
    obtain ⟨m', hm', hsocket, halive⟩ := (hopen m.socket).mp ⟨m.fd, (member_open hheld hm).1⟩
    obtain rfl := socket_inj hheld hm' hm hsocket
    rw [hdestroyed] at halive
    cases halive
  · intro hno
    have halive : ∀ m ∈ s.members, m.destroyed = false := by
      intro m hm
      by_contra hd
      exact hno (List.mem_map.mpr ⟨m, hm, by simpa using hd⟩)
    refine ⟨fun m hm hd => ?_, fun k => ⟨?_, ?_⟩⟩
    · rw [halive m hm] at hd
      cases hd
    · rintro ⟨fd, hfd⟩
      obtain ⟨m, hm, heq⟩ := List.mem_map.mp ((hheld.table_iff fd k).mp hfd)
      exact ⟨m, hm, congrArg Prod.snd heq, halive m hm⟩
    · rintro ⟨m, hm, rfl, -⟩
      exact ⟨m.fd, (member_open hheld hm).1⟩

/-- Two connections, one on a worker's loop, and a rejected one; the first is closed by its peer,
and its object is still held. -/
theorem sockets_closed_none_destroyed :
    let labels : List Label := [.newConnection 7 {} 64, .rejectConnection 8,
      .newConnection 8 { closeCallback := .otherLoop } 64, .establish 1,
      .act 0 (.dispatch { read := true } (.received []) [] (.wrote 0)), .act 0 .swapFunctors]
    ∃ s, run step {} labels = some s ∧ s.closed = [1] ∧ ClosedOnce s ∧ OpenExactly s := by
  intro labels
  have hclosed : (run step {} labels).map TcpServer.closed = some [1] := by decide
  obtain ⟨s, hs, hlog⟩ := Option.map_eq_some_iff.mp hclosed
  exact ⟨s, hs, hlog, (sockets_closed_iff labels s hs).mpr (by simp [labels])⟩

/-- The peer closes, the entry is erased, `connection_destroyed` runs and the object goes. -/
theorem socket_leaks_on_destroy :
    ¬ ∀ (labels : List Label) (s : TcpServer), run step {} labels = some s →
      ClosedOnce s ∧ OpenExactly s := by
  intro h
  let labels : List Label := [.newConnection 7 {} 64,
    .act 0 (.dispatch { read := true } (.received []) [] (.wrote 0)), .act 0 .swapFunctors,
    .act 0 (.runFunctor (.wrote 0) []), .destroyConnection 0]
  let leaked (s : TcpServer) : Bool := s.members.any fun m => m.destroyed ∧
    m.world.state = .disconnected ∧ m.world.entries = 0 ∧ s.closed.count m.socket = 0
  have hleaks : (run step {} labels).map leaked = some true := by decide
  obtain ⟨s, hs, hleaked⟩ := Option.map_eq_some_iff.mp hleaks
  obtain ⟨m, hm, hprop⟩ := List.any_eq_true.mp hleaked
  obtain ⟨hdestroyed, hstate, hentries, hzero⟩ := of_decide_eq_true hprop
  have hone := (h labels s hs).1 m hm hdestroyed hstate hentries
  omega

def isNewConnection : Label → Bool
  | .newConnection .. => true
  | _ => false

/-- The descriptors that the process may have are numbered below its limit. -/
def FdBelow (limit : ℕ) : Label → Prop
  | .newConnection fd _ _ => fd < limit
  | _ => True

instance decidableFdBelow (limit : ℕ) : ∀ l, Decidable (FdBelow limit l)
  | .newConnection fd _ _ => inferInstanceAs (Decidable (fd < limit))
  | .rejectConnection _ | .establish _ | .act .. | .destroyServer | .loopEnds _ | .serverLoopEnds
  | .destroyConnection _ => .isTrue trivial

theorem step_fds {limit : ℕ} {l : Label} (hl : FdBelow limit l) (hfds : ∀ p ∈ (files s).held, p.1 < limit)
    (hstep : step s l = some s') :
    (∀ p ∈ (files s').held, p.1 < limit) ∧
      (files s').held.length = (files s).held.length + (isNewConnection l).toNat := by
  rcases step_files hstep with ⟨fd, config, initial, rfl, -, rfl⟩ | ⟨fd, rfl, -, rfl⟩ |
    ⟨i, rfl, hfiles, -⟩ | ⟨-, hfiles, -⟩
  · rw [(newConnection_files fd config initial).1]
    refine ⟨fun p hp => ?_, by simp [isNewConnection]⟩
    rcases List.mem_append.mp hp with hp | hp
    · exact hfds p hp
    · obtain rfl := List.mem_singleton.mp hp
      exact hl
  · exact ⟨hfds, rfl⟩
  · rw [hfiles]
    exact ⟨hfds, rfl⟩
  · rw [hfiles]
    refine ⟨hfds, ?_⟩
    cases l with
    | newConnection fd config initial =>
      have hlength := congrArg (fun f => f.held.length) hfiles
      obtain ⟨-, rfl⟩ := guard_eq_some hstep
      simp [(newConnection_files fd config initial).1] at hlength
    | _ => rfl

theorem run_fds {limit : ℕ} {labels : List Label} (hl : ∀ l ∈ labels, FdBelow limit l)
    (hfds : ∀ p ∈ (files s).held, p.1 < limit) (hrun : run step s labels = some s') :
    (∀ p ∈ (files s').held, p.1 < limit) ∧
      (files s').held.length = (files s).held.length + labels.countP isNewConnection := by
  induction labels generalizing s with
  | nil =>
    obtain rfl := Option.some.inj hrun
    exact ⟨hfds, rfl⟩
  | cons l labels ih =>
    obtain ⟨s₁, h₁, h₂⟩ := run_cons.mp hrun
    obtain ⟨hfds₁, hlength⟩ := step_fds (hl l List.mem_cons_self) hfds h₁
    obtain ⟨hfds', hlength'⟩ := ih (fun k hk => hl k (List.mem_cons_of_mem l hk)) hfds₁ h₂
    refine ⟨hfds', ?_⟩
    rw [hlength', hlength, List.countP_cons]
    cases isNewConnection l <;> simp only [Bool.toNat_true, Bool.toNat_false, if_true, if_false, Bool.false_eq_true]
      <;> omega

theorem fds_nodup {f : Files} (h : Held f) : (f.held.map Prod.fst).Nodup := by
  refine List.Nodup.map_on (fun p hp q hq heq => ?_) h.distinct.of_map
  have hp' := (h.table_iff p.1 p.2).mpr hp
  rw [heq, (h.table_iff q.1 q.2).mpr hq] at hp'
  exact Prod.ext heq (Option.some.inj hp').symm

/-- A process with `limit` descriptors accepts no more than `limit` connections in its whole life,
however many of them have been closed and destroyed; and if all its descriptors have become
accepted sockets, none is left to accept or to reject another. -/
theorem connections_bounded (limit : ℕ) (labels : List Label) (s : TcpServer)
    (hl : ∀ l ∈ labels, FdBelow limit l) (hrun : run step {} labels = some s) :
    labels.countP isNewConnection ≤ limit ∧
      (labels.countP isNewConnection = limit → ∀ fd < limit, (∀ config initial,
        step s (.newConnection fd config initial) = none) ∧ step s (.rejectConnection fd) = none) := by
  have hheld : Held (files s) := run_preserves (fun _ _ _ h hs => step_held h hs) initial_held hrun
  obtain ⟨hfds, hlength⟩ := run_fds hl (by simp [files]) hrun
  have hsub : (files s).held.map Prod.fst ⊆ List.range limit := by
    intro fd hfd
    obtain ⟨p, hp, rfl⟩ := List.mem_map.mp hfd
    exact List.mem_range.mpr (hfds p hp)
  have hsubperm := List.subperm_of_subset (fds_nodup hheld) hsub
  have hcount : ((files s).held.map Prod.fst).length = labels.countP isNewConnection := by
    rw [List.length_map, hlength]
    simp [files]
  refine ⟨?_, fun hall fd hfd => ?_⟩
  · simpa [hcount] using hsubperm.length_le
  · have hperm : ((files s).held.map Prod.fst).Perm (List.range limit) :=
      hsubperm.perm_of_length_le (by rw [hcount, hall, List.length_range])
    obtain ⟨p, hp, rfl⟩ := List.mem_map.mp (hperm.mem_iff.mpr (List.mem_range.mpr hfd))
    have hopen : s.table p.1 = some p.2 := (hheld.table_iff p.1 p.2).mpr hp
    simp [TcpServerModel.step, hopen]

/-- One descriptor, used by a connection that is long destroyed. -/
theorem connections_bounded_one :
    let labels : List Label := [.newConnection 0 {} 64,
      .act 0 (.dispatch { read := true } (.received []) [] (.wrote 0)), .act 0 .swapFunctors,
      .act 0 (.runFunctor (.wrote 0) []), .destroyConnection 0]
    ∃ s, run step {} labels = some s ∧ ∀ config initial, step s (.newConnection 0 config initial) = none := by
  intro labels
  obtain ⟨s, hs⟩ := Option.isSome_iff_exists.mp (show (run step {} labels).isSome by decide)
  exact ⟨s, hs, ((connections_bounded 1 labels s (by decide) hs).2 (by decide) 0 (by decide)).1⟩

end TzzeroHttp.ServerDescriptors
