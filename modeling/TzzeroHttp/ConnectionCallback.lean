import TzzeroHttp.TcpServerModel

/-! The connection callback. `new_connection` hands `connection_established` to the connection's
loop and then calls `connection_callback_` itself. On the server's own loop the first has run when
the second begins; on a worker's loop it is only queued, and the two threads race. -/
namespace TzzeroHttp.ConnectionCallback
open ConnectionModel ConnectionInterest TcpServerModel Runs

structure Options where
  context : Bool := false
  tcpNoDelay : Bool := false
  keepAlive : Bool := false
  deriving DecidableEq

def onConnection (connected : Bool) (o : Options) : Options :=
  if connected then { o with context := true, tcpNoDelay := true, keepAlive := true } else o

/-- A call of `connection_callback_`: the connection's number, whether `connection_established` had
run, what `connected()` was, and the options afterwards. -/
structure Seen where
  connection : ℕ
  established : Bool
  connected : Bool
  options : Options
  deriving DecidableEq

/-- A server whose loop may be inside `new_connection`, past the `run_in_loop`: `calling` is the
connection whose callback comes next. -/
structure Accepting where
  server : TcpServer := {}
  calling : Option ℕ := none
  seen : List Seen := []

inductive Label
  | server (label : TcpServerModel.Label)
  | connectionCallback

def runsElsewhere (m : Member) (a : Act) : Bool :=
  match m.config.closeCallback, a with
  | .otherLoop, .removeInLoop => false
  | .otherLoop, _ => true
  | _, .call t _ => t ≠ m.config.loopThread
  | _, _ => false

/-- What the other threads can do while the server's loop is inside `new_connection`. A connection
on this loop is known to nobody else yet. -/
def Concurrent (s : TcpServer) (i : ℕ) : TcpServerModel.Label → Bool
  | .establish _ => true
  | .act j a =>
    match s.members[j]? with
    | none => false
    | some m => runsElsewhere m a && (j ≠ i || m.config.closeCallback = .otherLoop)
  | .destroyConnection j => j ≠ i
  | _ => false

def Accepting.callback (a : Accepting) (i : ℕ) (m : Member) : Accepting :=
  let connected := decide (m.world.state = .connected)
  { a with
    calling := none
    seen := a.seen ++ [⟨i, !m.establishing, connected, onConnection connected {}⟩] }

def step (a : Accepting) : Label → Option Accepting
  | .server l =>
    match a.calling with
    | some i =>
      if Concurrent a.server i l then (TcpServerModel.step a.server l).map fun s => { a with server := s }
      else none
    | none =>
      (TcpServerModel.step a.server l).map fun s =>
        { a with
          server := s
          calling := match l with
            | .newConnection .. => some a.server.members.length
            | _ => none }
  | .connectionCallback =>
    match a.calling with
    | none => none
    | some i => (a.server.members[i]?).map (a.callback i)

/-- The callback found the connection established and CONNECTED, and everything was set. -/
def Seen.Live (r : Seen) : Prop :=
  r.established = true ∧ r.connected = true ∧ r.options = ⟨true, true, true⟩

def AllLive (a : Accepting) : Prop := ∀ r ∈ a.seen, r.Live

/-- The queued `connection_established` has been run before the callback, and no move of the
connection between the two leaves CONNECTED. -/
def InTime (a : Accepting) : Label → Prop
  | .connectionCallback => ∀ i ∈ a.calling, ∀ m ∈ a.server.members[i]?, m.establishing = false
  | .server (.act i act) =>
    a.calling = some i → ∀ m ∈ a.server.members[i]?, m.establishing = false →
      ∀ m' ∈ m.act a.server.alive act, m'.world.state = .connected
  | _ => True

instance (a : Accepting) : ∀ l, Decidable (InTime a l)
  | .connectionCallback =>
    inferInstanceAs (Decidable (∀ i ∈ a.calling, ∀ m ∈ a.server.members[i]?, m.establishing = false))
  | .server (.act i act) =>
    inferInstanceAs (Decidable (a.calling = some i → ∀ m ∈ a.server.members[i]?,
      m.establishing = false → ∀ m' ∈ m.act a.server.alive act, m'.world.state = .connected))
  | .server (.newConnection ..) | .server (.rejectConnection _) | .server (.establish _)
  | .server .destroyServer | .server (.loopEnds _) | .server .serverLoopEnds
  | .server (.destroyConnection _) => .isTrue trivial

variable {a a' : Accepting} {m m' : Member} {i j : ℕ}

theorem onMember_getElem? {s s' : TcpServer} {f : Member → Option Member}
    (h : s.onMember j f = some s') (hm : s.members[i]? = some m) :
    ∃ m', s'.members[i]? = some m' ∧ ((j ≠ i ∧ m' = m) ∨ (j = i ∧ f m = some m')) := by
  obtain ⟨n, hn, h⟩ := Option.bind_eq_some_iff.mp h
  obtain ⟨n', hn', rfl⟩ := Option.map_eq_some_iff.mp h
  by_cases hji : j = i
  · subst hji
    obtain rfl := Option.some.inj (hm.symm.trans hn)
    have hlt := (List.getElem?_eq_some_iff.mp hm).1
    exact ⟨n', by simp [hlt], .inr ⟨rfl, hn'⟩⟩
  · exact ⟨m, by simp [List.getElem?_set_ne hji, hm], .inl ⟨hji, rfl⟩⟩

theorem establish_connected (h : m.establish = some m') :
    m.establishing = true ∧ m'.establishing = false ∧ m'.world.state = .connected := by
  obtain ⟨hguard, rfl⟩ := guard_eq_some h
  refine ⟨hguard.1, rfl, ?_⟩
  simp only [World.connectionEstablished, World.addFd]
  split <;> rfl

/-- A move does not establish the connection and never leads back. -/
theorem act_forward {alive : Bool} {act : Act} (h : m.act alive act = some m') :
    m'.establishing = m.establishing ∧ rank m.world.state ≤ rank m'.world.state := by
  obtain ⟨-, h⟩ := Option.ite_none_right_eq_some.mp h
  obtain ⟨w, hw, h⟩ := Option.bind_eq_some_iff.mp h
  obtain ⟨-, rfl⟩ := guard_eq_some h
  exact ⟨rfl, (advance_stepAny hw).forward⟩

/-- Only the callback adds to what callbacks have seen. -/
theorem step_server_live {l : TcpServerModel.Label} (hstep : step a (.server l) = some a') :
    AllLive a' ↔ AllLive a := by
  simp only [step] at hstep
  split at hstep
  · obtain ⟨-, hstep⟩ := Option.ite_none_right_eq_some.mp hstep
    obtain ⟨s, -, rfl⟩ := Option.map_eq_some_iff.mp hstep
    exact Iff.rfl
  · obtain ⟨s, -, rfl⟩ := Option.map_eq_some_iff.mp hstep
    exact Iff.rfl

theorem step_callback (hstep : step a .connectionCallback = some a') :
    ∃ i m, a.calling = some i ∧ a.server.members[i]? = some m ∧ a' = a.callback i m := by
  simp only [step] at hstep
  split at hstep
  · cases hstep
  · next i hcalling =>
    obtain ⟨m, hm, rfl⟩ := Option.map_eq_some_iff.mp hstep
    exact ⟨i, m, hcalling, hm, rfl⟩

theorem step_calling {l : TcpServerModel.Label} (hcalling : a.calling = some i)
    (hm : a.server.members[i]? = some m) (hstep : step a (.server l) = some a') :
    a'.calling = some i ∧ ∃ m', a'.server.members[i]? = some m' ∧
      (m' = m ∨ m.establish = some m' ∨ ∃ act, l = .act i act ∧
        m.config.closeCallback = .otherLoop ∧ m.act a.server.alive act = some m') := by
  simp only [step, hcalling] at hstep
  obtain ⟨hconcurrent, hstep⟩ := Option.ite_none_right_eq_some.mp hstep
  obtain ⟨s, hs, rfl⟩ := Option.map_eq_some_iff.mp hstep
  refine ⟨rfl, ?_⟩
  cases l with
  | establish j =>
    obtain ⟨m', hm', ⟨-, hsame⟩ | ⟨-, hf⟩⟩ := onMember_getElem? hs hm
    · exact ⟨m', hm', .inl hsame⟩
    · exact ⟨m', hm', .inr (.inl hf)⟩
  | act j act =>
    obtain ⟨m', hm', ⟨-, hsame⟩ | ⟨rfl, hf⟩⟩ := onMember_getElem? hs hm
    · exact ⟨m', hm', .inl hsame⟩
    · have hboth : runsElsewhere m act = true ∧ m.config.closeCallback = .otherLoop := by
        simpa [Concurrent, hm] using hconcurrent
      exact ⟨m', hm', .inr (.inr ⟨act, rfl, hboth.2, hf⟩)⟩
  | destroyConnection j =>
    obtain ⟨m', hm', ⟨-, hsame⟩ | ⟨rfl, -⟩⟩ := onMember_getElem? hs hm
    · exact ⟨m', hm', .inl hsame⟩
    · simp [Concurrent] at hconcurrent
  | newConnection fd config initial => simp [Concurrent] at hconcurrent
  | rejectConnection fd => simp [Concurrent] at hconcurrent
  | destroyServer => simp [Concurrent] at hconcurrent
  | loopEnds j => simp [Concurrent] at hconcurrent
  | serverLoopEnds => simp [Concurrent] at hconcurrent

theorem newConnection_member (s : TcpServer) (fd : Fd) (config : Config) (initial : ℕ) :
    ∃ m, (s.newConnection fd config initial).members = s.members ++ [m] ∧ m.config = config ∧
      (m.establishing = true ∨ m.world.state = .connected) ∧
      (config.closeCallback ≠ .otherLoop → m.establishing = false) := by
  unfold TcpServer.newConnection
  cases hloop : config.closeCallback with
  | otherLoop => exact ⟨_, rfl, rfl, .inl rfl, by simp⟩
  | sameLoop => exact ⟨_, rfl, rfl, .inr rfl, fun _ => rfl⟩
  | none => exact ⟨_, rfl, rfl, .inr rfl, fun _ => rfl⟩

theorem step_not_calling {l : TcpServerModel.Label} (hcalling : a.calling = none)
    (hstep : step a (.server l) = some a') :
    a'.calling = none ∨ ∃ fd config initial m,
      l = .newConnection fd config initial ∧ a'.calling = some a.server.members.length ∧
        a'.server.members[a.server.members.length]? = some m ∧ m.config = config ∧
        (m.establishing = true ∨ m.world.state = .connected) ∧
        (config.closeCallback ≠ .otherLoop → m.establishing = false) := by
  simp only [step, hcalling] at hstep
  obtain ⟨s, hs, rfl⟩ := Option.map_eq_some_iff.mp hstep
  cases l with
  | newConnection fd config initial =>
    obtain ⟨-, rfl⟩ := guard_eq_some hs
    obtain ⟨m, hmembers, hm⟩ := newConnection_member a.server fd config initial
    exact .inr ⟨fd, config, initial, m, rfl, rfl, by simp [hmembers], hm⟩
  | rejectConnection fd => exact .inl rfl
  | establish j => exact .inl rfl
  | act j act => exact .inl rfl
  | destroyServer => exact .inl rfl
  | loopEnds j => exact .inl rfl
  | serverLoopEnds => exact .inl rfl
  | destroyConnection j => exact .inl rfl

theorem callback_live (m : Member) :
    AllLive (a.callback i m) ↔ AllLive a ∧ m.establishing = false ∧ m.world.state = .connected := by
  have hone : Seen.Live ⟨i, !m.establishing, decide (m.world.state = .connected),
      onConnection (decide (m.world.state = .connected)) {}⟩ ↔
        m.establishing = false ∧ m.world.state = .connected := by
    simp only [Seen.Live, Bool.not_eq_true', decide_eq_true_eq]
    refine and_congr_right fun _ => and_iff_left_of_imp fun hstate => ?_
    simp [onConnection, hstate]
  simp only [AllLive, Accepting.callback, List.mem_append, List.mem_singleton, or_imp, forall_and,
    forall_eq, hone]

structure Due (a : Accepting) : Prop where
  member : ∀ i ∈ a.calling, ∃ m, a.server.members[i]? = some m ∧
    (m.establishing = true ∨ m.world.state = .connected)
  live : AllLive a

theorem step_due {l : Label} (h : Due a) (hok : InTime a l) (hstep : step a l = some a') : Due a' := by
  cases l with
  | connectionCallback =>
    obtain ⟨i, m, hcalling, hm, rfl⟩ := step_callback hstep
    obtain ⟨n, hn, hready⟩ := h.member i hcalling
    obtain rfl := Option.some.inj (hm.symm.trans hn)
    have hestablished := hok i hcalling m hm
    refine ⟨by simp [Accepting.callback], (callback_live m).mpr ⟨h.live, hestablished, ?_⟩⟩
    simpa [hestablished] using hready
  | server l =>
    cases hcalling : a.calling with
    | none =>
      refine ⟨fun i hi => ?_, (step_server_live hstep).mpr h.live⟩
      rcases step_not_calling hcalling hstep with hnone | ⟨fd, config, initial, m, -, hnew, hm, -, hready, -⟩
      · simp [hnone] at hi
      · obtain rfl := Option.some.inj (hnew.symm.trans hi)
        exact ⟨m, hm, hready⟩
    | some i =>
      obtain ⟨m, hm, hready⟩ := h.member i hcalling
      obtain ⟨hsame, m', hm', hcases⟩ := step_calling hcalling hm hstep
      refine ⟨fun j hj => ?_, (step_server_live hstep).mpr h.live⟩
      obtain rfl := Option.some.inj (hsame.symm.trans hj)
      refine ⟨m', hm', ?_⟩
      rcases hcases with rfl | hestablish | ⟨act, rfl, -, hact⟩
      · exact hready
      · exact .inr (establish_connected hestablish).2.2
      · cases hestablishing : m.establishing with
        | true => exact .inl ((act_forward hact).1.trans hestablishing)
        | false => exact .inr (hok hcalling m hm hestablishing m' hact)

/-- A callback has missed its connection, or is bound to. -/
def Missed (a : Accepting) : Prop :=
  (∃ i m, a.calling = some i ∧ a.server.members[i]? = some m ∧ m.establishing = false ∧
    2 ≤ rank m.world.state) ∨ ¬ AllLive a

theorem step_missed {l : Label} (h : Missed a) (hstep : step a l = some a') : Missed a' := by
  cases l with
  | connectionCallback =>
    obtain ⟨i, m, hcalling, hm, rfl⟩ := step_callback hstep
    refine .inr fun hlive => ?_
    obtain ⟨hbefore, -, hstate⟩ := (callback_live m).mp hlive
    rcases h with ⟨j, n, hj, hn, -, hrank⟩ | hbad
    · obtain rfl := Option.some.inj (hcalling.symm.trans hj)
      obtain rfl := Option.some.inj (hm.symm.trans hn)
      rw [hstate] at hrank
      simp [rank] at hrank
    · exact hbad hbefore
  | server l =>
    rcases h with ⟨i, m, hcalling, hm, hestablishing, hrank⟩ | hbad
    · obtain ⟨hsame, m', hm', hcases⟩ := step_calling hcalling hm hstep
      refine .inl ⟨i, m', hsame, hm', ?_⟩
      rcases hcases with rfl | hestablish | ⟨act, -, -, hact⟩
      · exact ⟨hestablishing, hrank⟩
      · rw [(establish_connected hestablish).1] at hestablishing
        cases hestablishing
      · obtain ⟨hkept, hforward⟩ := act_forward hact
        exact ⟨hkept.trans hestablishing, hrank.trans hforward⟩
    · exact .inr fun hlive => hbad ((step_server_live hstep).mp hlive)

theorem step_not_inTime {l : Label} (hdue : Due a) (hbad : ¬ InTime a l) (hstep : step a l = some a') :
    Missed a' := by
  cases l with
  | connectionCallback =>
    obtain ⟨i, m, hcalling, hm, rfl⟩ := step_callback hstep
    refine .inr fun hlive => hbad ?_
    intro j hj n hn
    obtain rfl := Option.some.inj (hcalling.symm.trans hj)
    obtain rfl := Option.some.inj (hm.symm.trans hn)
    exact ((callback_live m).mp hlive).2.1
  | server l =>
    cases l with
    | act i act =>
      simp only [InTime, not_forall] at hbad
      obtain ⟨hcalling, m, hm, hestablishing, m', hact, hleft⟩ := hbad
      obtain ⟨hkept, hforward⟩ := act_forward hact
      obtain ⟨n, hn, hready⟩ := hdue.member i hcalling
      obtain rfl := Option.some.inj (hm.symm.trans hn)
      have hstate : m.world.state = .connected := by simpa [hestablishing] using hready
      have hrank : 2 ≤ rank m'.world.state := by
        rw [hstate] at hforward
        cases hnext : m'.world.state with
        | connecting => simp [hnext, rank] at hforward
        | connected => exact absurd hnext hleft
        | disconnecting => simp [rank]
        | disconnected => simp [rank]
      refine .inl ⟨i, m', ?_, ?_, hkept.trans hestablishing, hrank⟩
      · exact (step_calling hcalling hm hstep).1
      · simp only [step, hcalling] at hstep
        obtain ⟨-, hstep⟩ := Option.ite_none_right_eq_some.mp hstep
        obtain ⟨s, hs, rfl⟩ := Option.map_eq_some_iff.mp hstep
        obtain ⟨k, hk, ⟨hne, -⟩ | ⟨-, hf⟩⟩ := onMember_getElem? hs hm
        · exact absurd rfl hne
        · rwa [Option.some.inj (hf.symm.trans hact)] at hk
    | newConnection fd config initial => exact absurd trivial hbad
    | rejectConnection fd => exact absurd trivial hbad
    | establish j => exact absurd trivial hbad
    | destroyServer => exact absurd trivial hbad
    | loopEnds j => exact absurd trivial hbad
    | serverLoopEnds => exact absurd trivial hbad
    | destroyConnection j => exact absurd trivial hbad

theorem initial_due : Due {} := ⟨by simp, by simp [AllLive]⟩

def OwnLoop : Label → Prop
  | .server (.newConnection _ config _) => config.closeCallback ≠ .otherLoop
  | _ => True

/-- On the server's own loop the connection is established when its callback comes. -/
structure Settled (a : Accepting) : Prop where
  member : ∀ i ∈ a.calling, ∃ m, a.server.members[i]? = some m ∧ m.establishing = false ∧
    m.config.closeCallback ≠ .otherLoop ∧ m.world.state = .connected
  live : AllLive a

theorem step_settled {l : Label} (h : Settled a) (hok : OwnLoop l) (hstep : step a l = some a') :
    Settled a' := by
  cases l with
  | connectionCallback =>
    obtain ⟨i, m, hcalling, hm, rfl⟩ := step_callback hstep
    obtain ⟨n, hn, hestablished, -, hstate⟩ := h.member i hcalling
    obtain rfl := Option.some.inj (hm.symm.trans hn)
    exact ⟨by simp [Accepting.callback], (callback_live m).mpr ⟨h.live, hestablished, hstate⟩⟩
  | server l =>
    cases hcalling : a.calling with
    | none =>
      refine ⟨fun i hi => ?_, (step_server_live hstep).mpr h.live⟩
      rcases step_not_calling hcalling hstep with
        hnone | ⟨fd, config, initial, m, rfl, hnew, hm, rfl, hready, hown⟩
      · simp [hnone] at hi
      · obtain rfl := Option.some.inj (hnew.symm.trans hi)
        have hestablished := hown hok
        exact ⟨m, hm, hestablished, hok, by simpa [hestablished] using hready⟩
    | some i =>
      obtain ⟨m, hm, hestablished, hown, hstate⟩ := h.member i hcalling
      obtain ⟨hsame, m', hm', hcases⟩ := step_calling hcalling hm hstep
      refine ⟨fun j hj => ?_, (step_server_live hstep).mpr h.live⟩
      obtain rfl := Option.some.inj (hsame.symm.trans hj)
      rcases hcases with rfl | hestablish | ⟨act, -, hother, -⟩
      · exact ⟨m', hm', hestablished, hown, hstate⟩
      · rw [(establish_connected hestablish).1] at hestablished
        cases hestablished
      · exact absurd hother hown

/-- Over every run: if every connection is established before its callback and stays CONNECTED
until then, every callback finds it live; in a run that is not inside `new_connection` at its end
this is also necessary; and with no worker loops it is always so. -/
theorem callbacks_live_iff (labels : List Label) (a : Accepting) (hrun : run step {} labels = some a) :
    (Guarded step InTime {} labels → AllLive a) ∧
      (a.calling = none → (AllLive a ↔ Guarded step InTime {} labels)) ∧
      ((∀ l ∈ labels, OwnLoop l) → AllLive a) := by
  have hforward : Guarded step InTime {} labels → AllLive a := by
    intro hok
    exact (run_invariant (fun _ _ _ => step_due) initial_due hok hrun).live
  refine ⟨hforward, fun hidle => ⟨fun hlive => ?_, hforward⟩, fun hown => ?_⟩
  · by_contra hbad
    have hmissed : Missed a := run_not_guarded (fun _ _ _ => step_due)
      (fun _ _ _ => step_not_inTime) (fun _ _ _ => step_missed) initial_due hbad hrun
    rcases hmissed with ⟨i, m, hcalling, -⟩ | hmissed
    · simp [hidle] at hcalling
    · exact hmissed hlive
  · have hsettled : Settled {} := ⟨by simp, by simp [AllLive]⟩
    exact (run_invariant (fun _ _ _ => step_settled) hsettled (guarded_of_forall hown) hrun).live

/-- A worker that establishes the connection, and reads from it, before the callback. -/
theorem callbacks_live_worker_first :
    let labels : List Label := [.server (.newConnection 5 { closeCallback := .otherLoop } 64),
      .server (.establish 0),
      .server (.act 0 (.dispatch { read := true } (.received [71]) [] (.wrote 0))),
      .connectionCallback]
    ∃ a, run step {} labels = some a ∧ a.seen.length = 1 ∧ AllLive a := by
  intro labels
  have hend : (run step {} labels).map (fun a => a.seen.length) = some 1 := by decide
  obtain ⟨a, ha, hseen⟩ := Option.map_eq_some_iff.mp hend
  have hinTime : Guarded step InTime {} labels := by decide
  exact ⟨a, ha, hseen, (callbacks_live_iff labels a ha).1 hinTime⟩

/-- A worker that has not come to its queue yet: the callback finds the connection CONNECTING and
sets nothing. -/
theorem callback_before_establishment :
    ¬ ∀ (labels : List Label) (a : Accepting), run step {} labels = some a → AllLive a := by
  intro h
  let labels : List Label := [.server (.newConnection 5 { closeCallback := .otherLoop } 64),
    .connectionCallback, .server (.establish 0)]
  have hend : (run step {} labels).map Accepting.seen = some [⟨0, false, false, {}⟩] := by
    decide
  obtain ⟨a, ha, hseen⟩ := Option.map_eq_some_iff.mp hend
  have hlive := h labels a ha ⟨0, false, false, {}⟩ (by simp [hseen])
  cases hlive.1

end TzzeroHttp.ConnectionCallback
