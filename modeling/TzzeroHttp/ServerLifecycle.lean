import TzzeroHttp.AcceptorReserve

/-! `start()` and `stop()` of the server, over its acceptor. `stop()` closes the door and tells the
connections in the table to shut down, on the server's loop, which may be in the middle of
`handle_read`, when a connection callback calls it, or in front of one, when a timer or another
I/O callback does after the poll. -/
namespace TzzeroHttp.ServerLifecycle
open AcceptorModel AcceptorReserve Runs

inductive Request
  | listen | stop
  deriving DecidableEq

/-- A connection is the position at which the acceptor took it. `told` are those for which
`shutdown()` has been queued in their loop or called; `stopped` is set by the first `stop()` that
finds the acceptor listening: how many had been taken, and whether `handle_read` was under way or
about to be called for an event of the batch. -/
structure Server (Peer : Type*) where
  acceptor : Acceptor Peer
  started : Bool := false
  queued : List Request := []
  connections : List ℕ := []
  told : List ℕ := []
  stopped : Option (ℕ × Bool) := none

/-- `onLoop` says that the call is made on the server's loop, by user code. -/
inductive Label (Peer : Type*)
  | acceptor (l : AcceptorModel.Label Peer)
  | start (onLoop : Bool)
  | stop (onLoop : Bool)
  | runFunctor
  | removeConnection (i : ℕ)

variable {Peer : Type*}

def isAccepting : Point Peer → Bool
  | .accepting _ => true
  | _ => false

namespace Server

def new (Peer : Type*) (limit others : ℕ) : Server Peer := { acceptor := .new Peer limit others true }

/-- `listen` throws when its socket has been bound before. -/
def listenInLoop (s : Server Peer) : Option (Server Peer) :=
  s.acceptor.listen.map fun a => { s with acceptor := a }

def stopInLoop (s : Server Peer) : Server Peer :=
  { s with
    acceptor := { s.acceptor with listening := false }
    told := s.told ++ s.connections
    stopped := if s.acceptor.listening ∧ s.stopped = none then
      some (s.acceptor.taken.length, isAccepting s.acceptor.point || s.acceptor.collected) else s.stopped }

def runRequest (s : Server Peer) : Request → Option (Server Peer)
  | .listen => s.listenInLoop
  | .stop => some s.stopInLoop

end Server

/-- The acceptor listens and stops listening through the two calls only, and it has its callback.
The functors are run behind the batch. -/
def step (s : Server Peer) : Label Peer → Option (Server Peer)
  | .acceptor .listen | .acceptor .disableListening => none
  | .acceptor (.accept none) =>
    (AcceptorModel.step s.acceptor (.accept none)).map fun a =>
      { s with acceptor := a, connections := s.connections ++ [s.acceptor.taken.length] }
  | .acceptor l => (AcceptorModel.step s.acceptor l).map fun a => { s with acceptor := a }
  | .start onLoop =>
    if onLoop ∧ s.acceptor.point.callable = false then none
    else if s.started then some s
    else if onLoop then { s with started := true }.listenInLoop
    else some { s with started := true, queued := s.queued ++ [.listen] }
  | .stop onLoop =>
    if onLoop ∧ s.acceptor.point.callable = false then none
    else if onLoop then some s.stopInLoop
    else some { s with queued := s.queued ++ [.stop] }
  | .runFunctor =>
    match s.queued, s.acceptor.point, s.acceptor.collected with
    | f :: fs, .outside, false => { s with queued := fs }.runRequest f
    | _, _, _ => none
  | .removeConnection i =>
    if s.acceptor.point.callable = true then some { s with connections := s.connections.erase i } else none

variable {s s' : Server Peer}

def Free : AcceptorModel.Label Peer → Prop
  | .listen | .disableListening => False
  | _ => True

inductive Moved (s : Server Peer) : Label Peer → Server Peer → Prop
  | accept (a : Acceptor Peer) (hstep : AcceptorModel.step s.acceptor (.accept none) = some a) :
    Moved s (.acceptor (.accept none))
      { s with acceptor := a, connections := s.connections ++ [s.acceptor.taken.length] }
  | acceptor (l : AcceptorModel.Label Peer) (a : Acceptor Peer) (hl : l ≠ .accept none) (hfree : Free l)
      (hstep : AcceptorModel.step s.acceptor l = some a) : Moved s (.acceptor l) { s with acceptor := a }
  | startAgain (onLoop : Bool) (hstarted : s.started = true) : Moved s (.start onLoop) s
  | startNow (a : Acceptor Peer) (hstarted : s.started = false) (hlisten : s.acceptor.listen = some a) :
    Moved s (.start true) { s with started := true, acceptor := a }
  | start (hstarted : s.started = false) :
    Moved s (.start false) { s with started := true, queued := s.queued ++ [.listen] }
  | stopNow (hcallable : s.acceptor.point.callable = true) : Moved s (.stop true) s.stopInLoop
  | stop : Moved s (.stop false) { s with queued := s.queued ++ [.stop] }
  | listen (fs : List Request) (a : Acceptor Peer) (hqueued : s.queued = .listen :: fs)
      (hpoint : s.acceptor.point = .outside) (hlisten : s.acceptor.listen = some a) :
    Moved s .runFunctor { s with queued := fs, acceptor := a }
  | stopRuns (fs : List Request) (hqueued : s.queued = .stop :: fs) (hpoint : s.acceptor.point = .outside) :
    Moved s .runFunctor { s with queued := fs }.stopInLoop
  | removeConnection (i : ℕ) : Moved s (.removeConnection i) { s with connections := s.connections.erase i }

theorem step_moved {l : Label Peer} (h : step s l = some s') : Moved s l s' := by
  cases l with
  | acceptor l =>
    cases l with
    | listen | disableListening => cases h
    | accept failure =>
      cases failure with
      | none =>
        obtain ⟨a, ha, rfl⟩ := Option.map_eq_some_iff.mp h
        exact .accept a ha
      | some e =>
        obtain ⟨a, ha, rfl⟩ := Option.map_eq_some_iff.mp h
        exact .acceptor _ a (by simp) trivial ha
    | _ =>
      obtain ⟨a, ha, rfl⟩ := Option.map_eq_some_iff.mp h
      exact .acceptor _ a (by simp) trivial ha
  | start onLoop =>
    obtain ⟨-, h⟩ := Option.ite_none_left_eq_some.mp h
    cases hstarted : s.started with
    | true =>
      simp only [hstarted, if_true] at h
      obtain rfl := Option.some.inj h
      exact .startAgain onLoop hstarted
    | false =>
      cases onLoop with
      | true =>
        simp only [hstarted, Bool.false_eq_true, if_false, if_true] at h
        obtain ⟨a, ha, rfl⟩ := Option.map_eq_some_iff.mp h
        exact .startNow a hstarted ha
      | false =>
        simp only [hstarted, Bool.false_eq_true, if_false] at h
        obtain rfl := Option.some.inj h
        exact .start hstarted
  | stop onLoop =>
    obtain ⟨hcallable, h⟩ := Option.ite_none_left_eq_some.mp h
    cases onLoop with
    | true =>
      simp only [if_true] at h
      obtain rfl := Option.some.inj h
      exact .stopNow (by simpa using hcallable)
    | false =>
      simp only [Bool.false_eq_true, if_false] at h
      obtain rfl := Option.some.inj h
      exact .stop
  | runFunctor =>
    simp only [step] at h
    split at h
    · next f fs hqueued hpoint hcollected =>
      cases f with
      | listen =>
        obtain ⟨a, ha, rfl⟩ := Option.map_eq_some_iff.mp h
        exact .listen fs a hqueued hpoint ha
      | stop =>
        obtain rfl := Option.some.inj h
        exact .stopRuns fs hqueued hpoint
    · cases h
  | removeConnection i =>
    obtain ⟨-, rfl⟩ := guard_eq_some h
    exact .removeConnection i

/-- The door is closed for good, and what was in the table when that happened has been told. -/
structure Closed (s : Server Peer) (n : ℕ) (pressing : Bool) : Prop where
  winding : Winding n pressing s.acceptor
  told : ∀ i ∈ s.connections, i < n → i ∈ s.told

structure Lifecycle (s : Server Peer) : Prop where
  orderly : Orderly s.acceptor
  waits : Waits s.acceptor
  listens : s.acceptor.bound.toNat + s.queued.count .listen = s.started.toNat
  bound : s.acceptor.listening = true → s.acceptor.bound = true
  closed : ∀ n pressing, s.stopped = some (n, pressing) → Closed s n pressing

theorem new_lifecycle (Peer : Type*) (limit others : ℕ) : Lifecycle (.new Peer limit others) where
  orderly := new_orderly Peer limit others true
  waits h := by cases h
  listens := rfl
  bound h := by cases h
  closed n pressing h := by cases h

theorem free_frame {a a' : Acceptor Peer} {l : AcceptorModel.Label Peer} (hfree : Free l)
    (hstep : AcceptorModel.step a l = some a') : a'.bound = a.bound ∧ a'.listening = a.listening := by
  cases AcceptorModel.step_move hstep with
  | listenAgain hlistening => exact hfree.elim
  | listen hp hbound => exact hfree.elim
  | disableListening hp => exact hfree.elim
  | retry failed hp => exact ⟨(retry_keeps a failed).2.1, (retry_keeps a failed).1⟩
  | _ => exact ⟨rfl, rfl⟩

/-- The first `listen` of a socket; there is no second. -/
theorem listen_eq {a a' : Acceptor Peer} (hbound : a.bound = false) (hlistening : a.listening = true → a.bound = true)
    (h : a.listen = some a') : a' = { a with bound := true, listening := true } := by
  have hoff : a.listening = false := by
    by_contra hon
    simp [hlistening (by simpa using hon)] at hbound
  simpa [Acceptor.listen, hoff, hbound] using h.symm

theorem listen_lifecycle (h : Lifecycle s) (hbound : s.acceptor.bound = false) {a : Acceptor Peer}
    (hlisten : s.acceptor.listen = some a) {started : Bool} {queued : List Request}
    (hlistens : 1 + queued.count .listen = started.toNat) :
    Lifecycle { s with started := started, queued := queued, acceptor := a } := by
  obtain rfl := listen_eq hbound h.bound hlisten
  refine ⟨⟨h.orderly.order, h.orderly.entered_le, h.orderly.burst, h.orderly.turn, h.orderly.room⟩, h.waits,
    hlistens, fun _ => rfl, fun n pressing hstopped => ?_⟩
  have hclosed := (h.closed n pressing hstopped).winding.bound
  rw [hbound] at hclosed
  cases hclosed

theorem idle_of_not_pressing {a : Acceptor Peer} (hcallable : a.point.callable = true)
    (h : (isAccepting a.point || a.collected) = false) : a.point = .outside ∧ a.collected = false := by
  obtain ⟨haccepting, hcollected⟩ := Bool.or_eq_false_iff.mp h
  refine ⟨?_, hcollected⟩
  cases hp : a.point <;> simp [hp, isAccepting, Point.callable] at haccepting hcallable ⊢

theorem stop_lifecycle (h : Lifecycle s) (hcallable : s.acceptor.point.callable = true) :
    Lifecycle s.stopInLoop where
  orderly := ⟨h.orderly.order, h.orderly.entered_le, h.orderly.burst, h.orderly.turn, h.orderly.room⟩
  waits := h.waits
  listens := h.listens
  bound hon := by cases hon
  closed n pressing hstopped := by
    simp only [Server.stopInLoop] at hstopped
    split_ifs at hstopped with hfirst
    · obtain ⟨rfl, rfl⟩ := Prod.mk.inj (Option.some.inj hstopped)
      have hidle := fun hpressing => idle_of_not_pressing hcallable hpressing
      refine ⟨⟨rfl, h.bound hfirst.1, h.waits, h.orderly.entered_le, le_rfl, fun _ => rfl, fun hpressing => ?_⟩,
        fun i hi _ => List.mem_append_right s.told hi⟩
      exact ⟨(hidle hpressing).1, (hidle hpressing).2, rfl⟩
    · obtain ⟨hw, htold⟩ := h.closed n pressing hstopped
      exact ⟨⟨rfl, hw.bound, hw.waits, hw.entered, hw.reached, hw.collected, hw.outside⟩,
        fun i hi hlt => List.mem_append_left s.connections (htold i hi hlt)⟩

theorem acceptor_lifecycle (h : Lifecycle s) {l : AcceptorModel.Label Peer} (hfree : Free l) {a : Acceptor Peer}
    (hstep : AcceptorModel.step s.acceptor l = some a) {connections : List ℕ}
    (hconnections : ∀ i ∈ connections, i ∈ s.connections ∨ i = s.acceptor.taken.length) :
    Lifecycle { s with acceptor := a, connections := connections } := by
  obtain ⟨hbound, hlistening⟩ := free_frame hfree hstep
  refine ⟨step_orderly h.orderly hstep, step_waits h.waits hstep, ?_, fun hon => ?_, fun n pressing hstopped => ?_⟩
  · show a.bound.toNat + _ = _
    rw [hbound]
    exact h.listens
  · rw [hbound]
    exact h.bound (hlistening ▸ hon)
  · obtain ⟨hw, htold⟩ := h.closed n pressing hstopped
    refine ⟨step_winding hw hstep, fun i hi hlt => ?_⟩
    rcases hconnections i hi with hi | rfl
    · exact htold i hi hlt
    · exact absurd hw.reached (Nat.not_le.mpr hlt)

theorem step_lifecycle {l : Label Peer} (h : Lifecycle s) (hstep : step s l = some s') : Lifecycle s' := by
  have hlistens := h.listens
  cases step_moved hstep with
  | accept a ha =>
    have hfree : Free (.accept none : AcceptorModel.Label Peer) := trivial
    exact acceptor_lifecycle h hfree ha fun i hi => by simpa using hi
  | acceptor l a hl hfree ha => exact acceptor_lifecycle h hfree ha fun i hi => .inl hi
  | startAgain onLoop hstarted => exact h
  | startNow a hstarted hlisten =>
    simp only [hstarted, Bool.toNat_false, Nat.add_eq_zero_iff] at hlistens
    refine listen_lifecycle h (by simpa using hlistens.1) hlisten ?_
    simp [hlistens.2]
  | start hstarted =>
    refine ⟨h.orderly, h.waits, ?_, h.bound, fun n pressing hstopped => ?_⟩
    · simp only [hstarted, Bool.toNat_false] at hlistens
      simp only [List.count_append, Bool.toNat_true]
      have hone : [Request.listen].count .listen = 1 := rfl
      omega
    · obtain ⟨hw, htold⟩ := h.closed n pressing hstopped
      exact ⟨hw, htold⟩
  | stopNow hcallable => exact stop_lifecycle h hcallable
  | stop =>
    refine ⟨h.orderly, h.waits, by simpa using hlistens, h.bound, fun n pressing hstopped => ?_⟩
    obtain ⟨hw, htold⟩ := h.closed n pressing hstopped
    exact ⟨hw, htold⟩
  | listen fs a hqueued hpoint hlisten =>
    have hle := Bool.toNat_le s.started
    rw [hqueued, List.count_cons_self] at hlistens
    refine listen_lifecycle h ?_ hlisten (by omega)
    cases hb : s.acceptor.bound with
    | false => rfl
    | true => simp only [hb, Bool.toNat_true] at hlistens; omega
  | stopRuns fs hqueued hpoint =>
    have hnext : Lifecycle { s with queued := fs } := by
      refine ⟨h.orderly, h.waits, ?_, h.bound, fun n pressing hstopped => ?_⟩
      · rw [hqueued] at hlistens
        simpa using hlistens
      · obtain ⟨hw, htold⟩ := h.closed n pressing hstopped
        exact ⟨hw, htold⟩
    exact stop_lifecycle hnext (by simp [hpoint, Point.callable])
  | removeConnection i =>
    refine ⟨h.orderly, h.waits, hlistens, h.bound, fun n pressing hstopped => ?_⟩
    obtain ⟨hw, htold⟩ := h.closed n pressing hstopped
    exact ⟨hw, fun j hj => htold j (List.mem_of_mem_erase hj)⟩

/-- In every run of the server, however often and on whatever threads `start()` and `stop()` are
called: the acceptor is made to listen once at most, so that it never throws. Once a `stop()` has
found it listening, it never listens again, and every connection that was in the table then and
still is has been told to shut down. Connections that come later come from the one `handle_read`
that was under way, or that was still to be called for an event of the batch, at most
`kMaxAcceptPerLoop` of them; when there was no such call, there are none. -/
theorem stop_quiesces (limit others : ℕ) (labels : List (Label Peer)) (s : Server Peer)
    (hrun : run step (.new Peer limit others) labels = some s) :
    (.listen ∈ s.queued → s.acceptor.bound = false) ∧
      ∀ n pressing, s.stopped = some (n, pressing) →
        s.acceptor.listening = false ∧ (∀ i ∈ s.connections, i < n → i ∈ s.told) ∧
          s.acceptor.taken.length ≤ n + if pressing then maxAcceptPerLoop else 0 := by
  have h : Lifecycle s := run_preserves (fun _ _ _ => step_lifecycle) (new_lifecycle Peer limit others) hrun
  refine ⟨fun hqueued => ?_, fun n pressing hstopped => ?_⟩
  · have hlistens := h.listens
    have hpos := List.count_pos_iff.mpr hqueued
    have hle := Bool.toNat_le s.started
    cases hb : s.acceptor.bound with
    | false => rfl
    | true => simp only [hb, Bool.toNat_true] at hlistens; omega
  · obtain ⟨hw, htold⟩ := h.closed n pressing hstopped
    exact ⟨hw.listening, htold, winding_taken hw h.orderly⟩

/-- A timer calls `stop()` when the poll has collected an event of the listening socket: two peers
are let in behind it, and nobody tells them. -/
theorem stop_quiesces_collected :
    let labels : List (Label ℕ) := [.start true, .acceptor (.arrive 7), .acceptor (.poll true),
      .acceptor .handleRead, .acceptor (.accept none), .acceptor (.accept (some .wouldBlock)),
      .acceptor (.arrive 8), .acceptor (.arrive 9), .acceptor (.poll true), .stop true, .acceptor .handleRead,
      .acceptor (.accept none), .acceptor (.accept none), .acceptor (.accept (some .wouldBlock)),
      .acceptor (.poll true)]
    ∃ s, run step (.new ℕ 9 1) labels = some s ∧ s.connections = [0, 1, 2] ∧ s.told = [0] ∧
      s.stopped = some (1, true) ∧ s.acceptor.listening = false ∧
      s.acceptor.taken.length ≤ 1 + maxAcceptPerLoop := by
  intro labels
  have hend : (run step (.new ℕ 9 1) labels).map (fun s => (s.connections, s.told, s.stopped)) =
      some ([0, 1, 2], [0], some (1, true)) := by decide
  obtain ⟨s, hs, hresult⟩ := Option.map_eq_some_iff.mp hend
  simp only [Prod.mk.injEq] at hresult
  obtain ⟨hconnections, htold, hstopped⟩ := hresult
  obtain ⟨hlistening, -, htaken⟩ := (stop_quiesces 9 1 labels s hs).2 1 true hstopped
  exact ⟨s, hs, hconnections, htold, hstopped, hlistening, htaken⟩

end TzzeroHttp.ServerLifecycle
