import TzzeroHttp.ConnectionInterest

/-! The end of a connection. The server's destructor and the functor that
`remove_connection_in_loop` queues both run `connection_destroyed`, which acts on a CONNECTED
connection only. One that `shutdown` has already put into DISCONNECTING, as `stop()` does with
all of them, stays there and stays registered. -/
namespace TzzeroHttp.ConnectionTeardown
open ConnectionModel ConnectionInterest Runs

/-- The assertion of `~TcpConnection`, with the descriptor out of the poller. -/
def Ended (w : World) : Prop := w.state = .disconnected ∧ w.interest = none

/-- The moves that run `connection_destroyed`: called by the destructor on the connection's own
loop, or taken from the loop's queue. -/
def Destroys (w : World) : Act → Prop
  | .connectionDestroyed => True
  | .runFunctor _ _ => w.batch.head? = some .connectionDestroyed
  | _ => False

variable {cfg : Config} {w v : World}

theorem state_ne_connecting {initial : ℕ} {acts : List Act}
    (hrun : run (stepAny cfg) (established initial) acts = some w) : w.state ≠ .connecting := by
  intro hstate
  have hforward := (advance_run hrun).forward
  have hfirst : rank (established initial).state = 1 := rfl
  rw [hstate, hfirst] at hforward
  simp [rank] at hforward

theorem closeCallback_ended (h : Ended w) : Ended (w.closeCallback cfg) := by
  unfold World.closeCallback
  cases cfg.closeCallback <;> exact h

theorem connectionDestroyed_connected (hsynced : Synced w) (hthrown : w.thrown = none)
    (hstate : w.state = .connected) : Ended (w.connectionDestroyed cfg) := by
  obtain ⟨e, he⟩ := Option.isSome_iff_exists.mp (hsynced.registered.mpr (.inl hstate))
  have hended : Ended { w with state := .disconnected, closes := w.closes + 1, interest := none } :=
    ⟨rfl, rfl⟩
  simp only [World.connectionDestroyed, if_pos hstate, World.removeFd, he, World.andThen, hthrown,
    Option.isSome_none, Bool.false_eq_true, if_false]
  exact closeCallback_ended hended

/-- Where the connection stands after `connection_destroyed`, from any synced state that is past
its establishment. -/
theorem connectionDestroyed_ended_iff (hsynced : Synced w) (hthrown : w.thrown = none)
    (hpast : w.state ≠ .connecting) :
    Ended (w.connectionDestroyed cfg) ↔ w.state ≠ .disconnecting := by
  cases hstate : w.state with
  | connecting => exact absurd hstate hpast
  | connected => simp [connectionDestroyed_connected hsynced hthrown hstate]
  | disconnecting => simp [World.connectionDestroyed, hstate, Ended]
  | disconnected =>
    have hgone : w.interest = none := by
      have hreg := hsynced.registered
      rw [hstate] at hreg
      simpa using hreg
    simp [World.connectionDestroyed, hstate, Ended, hgone]

theorem destroys_step {a : Act} (hdestroys : Destroys w a) (hstep : stepAny cfg w a = some v) :
    ∃ u : World, u.state = w.state ∧ u.interest = w.interest ∧ u.output = w.output ∧
      u.thrown = w.thrown ∧ w.thrown = none ∧ v = u.connectionDestroyed cfg := by
  cases a with
  | connectionDestroyed =>
    have hmove : step cfg w .connectionDestroyed = some v := hstep
    obtain ⟨hthrown, hmove⟩ := step_move hmove
    cases hmove
    exact ⟨w, rfl, rfl, rfl, rfl, hthrown, rfl⟩
  | runFunctor r cs =>
    have hmove : step cfg w (.runFunctor r cs) = some v := hstep
    obtain ⟨hthrown, hmove⟩ := step_move hmove
    cases hmove with
    | runFunctor r cs f fs hbatch =>
      have hf : f = .connectionDestroyed := by
        simpa [Destroys, hbatch] using hdestroys
      subst hf
      exact ⟨{ w with batch := fs }, rfl, rfl, rfl, rfl, hthrown, rfl⟩
  | call t c => exact absurd hdestroys id
  | swapFunctors => exact absurd hdestroys id
  | dispatch e r cs r' => exact absurd hdestroys id
  | removeInLoop => exact absurd hdestroys id

/-- In every run, whenever `connection_destroyed` runs: the connection is DISCONNECTED and out
of the poller afterwards exactly when it was not DISCONNECTING before. -/
theorem destroyed_ended_iff (cfg : Config) (initial : ℕ) (acts : List Act) (w w' : World) (a : Act)
    (hrun : run (stepAny cfg) (established initial) acts = some w) (hdestroys : Destroys w a)
    (hstep : stepAny cfg w a = some w') : Ended w' ↔ w.state ≠ .disconnecting := by
  obtain ⟨u, hstate, hinterest, houtput, hthrown, hnone, rfl⟩ := destroys_step hdestroys hstep
  have hsynced : Synced w := (advance_run hrun).synced hnone (established_synced initial)
  have hu : Synced u := by
    refine ⟨?_, ?_⟩
    · rw [hinterest, hstate]
      exact hsynced.registered
    · rw [hinterest, houtput]
      exact hsynced.wanted
  rw [← hstate]
  apply connectionDestroyed_ended_iff hu (hthrown.trans hnone)
  rw [hstate]
  exact state_ne_connecting hrun

/-- The peer closes, the removal is queued, and the queued `connection_destroyed` runs. -/
theorem destroyed_ended_peer_closed :
    let acts : List Act := [.dispatch { read := true } (.received []) [] (.wrote 0), .swapFunctors]
    ∃ w w', run (stepAny {}) (established 64) acts = some w ∧
      Destroys w (.runFunctor (.wrote 0) []) ∧ stepAny {} w (.runFunctor (.wrote 0) []) = some w' ∧
      Ended w' := by
  intro acts
  have hbatch : (run (stepAny {}) (established 64) acts).map (fun w => (w.state, w.batch)) =
      some (.disconnected, [.connectionDestroyed]) := by decide
  have hend : (run (stepAny {}) (established 64) (acts ++ [.runFunctor (.wrote 0) []])).isSome := by
    decide
  obtain ⟨w', hw'⟩ := Option.isSome_iff_exists.mp hend
  obtain ⟨w, hw, hlast⟩ := run_append.mp hw'
  obtain ⟨v, hstep, hv⟩ := run_cons.mp hlast
  obtain rfl := Option.some.inj hv
  rw [hw] at hbatch
  obtain ⟨hstate, hfunctors⟩ := Prod.mk.inj (Option.some.inj hbatch)
  have hdestroys : Destroys w (.runFunctor (.wrote 0) []) := by simp [Destroys, hfunctors]
  refine ⟨w, v, hw, hdestroys, hstep, ?_⟩
  exact (destroyed_ended_iff {} 64 acts w v _ hw hdestroys hstep).mpr (by simp [hstate])

/-- `stop()` and then the destructor: no connection that was CONNECTED ends. -/
theorem stop_then_destroyed (cfg : Config) (t : ThreadId) (h : w.state = .connected) :
    ¬ Ended ((w.shutdown cfg t).connectionDestroyed cfg) := by
  have hstate : (w.shutdown cfg t).state = .disconnecting := by
    simp only [World.shutdown, if_pos h, World.shutdownInLoop]
    split_ifs <;> rfl
  simp [World.connectionDestroyed, hstate, Ended]

/-- An idle connection, `stop()`, the server's destructor. -/
theorem destroyed_while_disconnecting :
    ¬ ∀ (cfg : Config) (initial : ℕ) (acts : List Act) (w w' : World) (a : Act),
      run (stepAny cfg) (established initial) acts = some w → Destroys w a →
        stepAny cfg w a = some w' → Ended w' := by
  intro h
  let w := (established 64).shutdown {} 0
  have hrun : run (stepAny {}) (established 64) [.call 0 .shutdown] = some w := rfl
  exact stop_then_destroyed {} 0 rfl (h {} 64 _ w _ .connectionDestroyed hrun trivial rfl)

end TzzeroHttp.ConnectionTeardown
