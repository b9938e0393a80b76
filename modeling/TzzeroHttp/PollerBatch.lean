import TzzeroHttp.PollerModel

/-! Events that outlive their registration. The batch is not looked at again when a descriptor is
removed, so an event is stale exactly when its descriptor was removed while the event waited. -/
namespace TzzeroHttp.PollerBatch
open PollerModel Runs

variable {C : Type*} {l l' : EventLoop C}

def AllInPlace (l : EventLoop C) : Prop := ∀ i ∈ l.invoked, i.2 = true

def Separate (l : EventLoop C) : Label C → Prop
  | .call (.removeFd fd) => ∀ e ∈ l.activeEvents, e.callback.isSome → e.fd ≠ fd
  | _ => True

instance (l : EventLoop C) : ∀ a, Decidable (Separate l a)
  | .call (.removeFd fd) =>
    inferInstanceAs (Decidable (∀ e ∈ l.activeEvents, e.callback.isSome → e.fd ≠ fd))
  | .call (.addFd ..) | .call (.modifyFd ..) | .poll _ | .next => .isTrue trivial

/-- Events that wait are of descriptors that were not removed. -/
structure Fresh (l : EventLoop C) : Prop where
  waiting : ∀ e ∈ l.activeEvents, e.callback.isSome → e.fd ∉ l.removed
  invoked : AllInPlace l

/-- A stale callback waits, or has been invoked. -/
def Stale (l : EventLoop C) : Prop :=
  (∃ e ∈ l.activeEvents, e.callback.isSome ∧ e.fd ∈ l.removed) ∨ ¬ AllInPlace l

theorem call_spec (c : Call C) :
    (l.call c).activeEvents = l.activeEvents ∧ (l.call c).invoked = l.invoked ∧
      (l.call c).removed = l.removed ++ c.removes := by
  unfold EventLoop.call
  simp only
  split <;> exact ⟨rfl, rfl, rfl⟩

/-- The loop goes on to the event at the front of the batch. -/
theorem step_next (hstep : step l .next = some l') : ∃ e rest, l.activeEvents = e :: rest ∧
    l' = { l with activeEvents := rest }.invoke e := by
  simp only [step] at hstep
  split at hstep
  · cases hstep
  · next e rest hbatch =>
    obtain ⟨-, rfl⟩ := guard_eq_some hstep
    exact ⟨e, rest, hbatch, rfl⟩

theorem invoke_activeEvents (e : PollEvent C) : (l.invoke e).activeEvents = l.activeEvents := by
  unfold EventLoop.invoke
  split_ifs <;> rfl

theorem invoke_removed (e : PollEvent C) : (l.invoke e).removed = l.removed := by
  unfold EventLoop.invoke
  split_ifs <;> rfl

/-- An event leaves the batch in place exactly when it has no callback or its descriptor was not
removed. -/
theorem invoke_allInPlace (e : PollEvent C) :
    AllInPlace (l.invoke e) ↔ AllInPlace l ∧ (e.callback.isSome → e.fd ∉ l.removed) := by
  unfold EventLoop.invoke
  split_ifs with hcallback
  · simp [AllInPlace, or_imp, forall_and, hcallback]
  · simp [hcallback]

theorem step_fresh {a : Label C} (h : Fresh l) (hok : Separate l a) (hstep : step l a = some l') :
    Fresh l' := by
  cases a with
  | poll ready =>
    obtain ⟨-, rfl⟩ := guard_eq_some hstep
    exact ⟨by simp, h.invoked⟩
  | call c =>
    obtain ⟨-, rfl⟩ := guard_eq_some hstep
    obtain ⟨hevents, hinvoked, hremoved⟩ := call_spec (l := l) c
    refine ⟨fun e he hcallback => ?_, ?_⟩
    · rw [hevents] at he
      rw [hremoved, List.mem_append, not_or]
      refine ⟨h.waiting e he hcallback, ?_⟩
      cases c with
      | removeFd fd => simpa [Call.removes] using hok e he hcallback
      | addFd fd events callback => simp [Call.removes]
      | modifyFd fd events callback => simp [Call.removes]
    · unfold AllInPlace
      rw [hinvoked]
      exact h.invoked
  | next =>
    obtain ⟨e, rest, hbatch, rfl⟩ := step_next hstep
    have hwaiting := h.waiting
    rw [hbatch] at hwaiting
    refine ⟨fun e' he' hcallback => ?_, ?_⟩
    · rw [invoke_activeEvents] at he'
      rw [invoke_removed]
      exact hwaiting e' (by simp [he']) hcallback
    · rw [invoke_allInPlace]
      exact ⟨h.invoked, hwaiting e (by simp)⟩

/-- Once stale the loop stays so: the event waits until it is invoked. -/
theorem step_stale {a : Label C} (h : Stale l) (hstep : step l a = some l') : Stale l' := by
  cases a with
  | poll ready =>
    obtain ⟨⟨-, hempty, -⟩, rfl⟩ := guard_eq_some hstep
    rcases h with ⟨e, he, -⟩ | hinvoked
    · simp [hempty] at he
    · exact .inr hinvoked
  | call c =>
    obtain ⟨-, rfl⟩ := guard_eq_some hstep
    obtain ⟨hevents, hinvoked, hremoved⟩ := call_spec (l := l) c
    unfold Stale AllInPlace
    rw [hevents, hinvoked, hremoved]
    rcases h with ⟨e, he, hcallback, hfd⟩ | hbad
    · exact .inl ⟨e, he, hcallback, by simp [hfd]⟩
    · exact .inr hbad
  | next =>
    obtain ⟨e, rest, hbatch, rfl⟩ := step_next hstep
    unfold Stale
    rw [invoke_activeEvents, invoke_removed, invoke_allInPlace]
    rcases h with ⟨e', he', hcallback, hfd⟩ | hbad
    · rw [hbatch] at he'
      rcases List.mem_cons.mp he' with rfl | he'
      · exact .inr fun hplace => hplace.2 hcallback hfd
      · exact .inl ⟨e', he', hcallback, hfd⟩
    · exact .inr fun hplace => hbad hplace.1

theorem step_not_separate {a : Label C} (hbad : ¬ Separate l a) (hstep : step l a = some l') :
    Stale l' := by
  cases a with
  | poll ready => exact absurd trivial hbad
  | next => exact absurd trivial hbad
  | call c =>
    cases c with
    | addFd fd events callback => exact absurd trivial hbad
    | modifyFd fd events callback => exact absurd trivial hbad
    | removeFd fd =>
      obtain ⟨-, rfl⟩ := guard_eq_some hstep
      obtain ⟨hevents, -, hremoved⟩ := call_spec (l := l) (.removeFd fd)
      simp only [Separate, not_forall, not_not] at hbad
      obtain ⟨e, he, hcallback, rfl⟩ := hbad
      refine .inl ⟨e, ?_, hcallback, ?_⟩
      · rw [hevents]
        exact he
      · simp [hremoved, Call.removes]

/-- Over every run of the loop, and so in every iteration: if nothing passes to `remove_fd` a
descriptor whose callback waits in the batch, every callback is invoked with its registration in
place, and in a run that has worked off its batches this is also necessary. -/
theorem callbacks_in_place_iff (p : EpollPoller C) (labels : List (Label C)) (l : EventLoop C)
    (hrun : run step { poller := p } labels = some l) :
    (Guarded step Separate { poller := p } labels → AllInPlace l) ∧
      (l.activeEvents = [] → (AllInPlace l ↔ Guarded step Separate { poller := p } labels)) := by
  have hfresh : Fresh ({ poller := p } : EventLoop C) := ⟨by simp, by simp [AllInPlace]⟩
  have hforward : Guarded step Separate { poller := p } labels → AllInPlace l := by
    intro hok
    exact (run_invariant (fun _ _ _ => step_fresh) hfresh hok hrun).invoked
  refine ⟨hforward, fun hempty => ⟨fun hplace => ?_, hforward⟩⟩
  by_contra hbad
  have hstale : Stale l := run_not_guarded (fun _ _ _ => step_fresh)
    (fun _ _ _ _ => step_not_separate) (fun _ _ _ => step_stale) hfresh hbad hrun
  rcases hstale with ⟨e, he, -⟩ | hinvoked
  · simp [hempty] at he
  · exact hinvoked hplace

/-- Two ready descriptors, of which the first callback removes its own. -/
theorem callbacks_in_place_own_fd :
    let labels : List (Label ℕ) := [.call (.addFd 3 { read := true } (some 0)),
      .call (.addFd 4 { read := true } (some 1)),
      .poll [(3, { epollin := true }), (4, { epollin := true })],
      .next, .call (.removeFd 3), .next]
    ∃ l, run step { poller := {} } labels = some l ∧ l.invoked.map Prod.fst = [3, 4] ∧ AllInPlace l := by
  intro labels
  have hend : (run step { poller := {} } labels).map (fun l => l.invoked.map Prod.fst) =
      some [3, 4] := by decide
  obtain ⟨l, hl, hinvoked⟩ := Option.map_eq_some_iff.mp hend
  have hseparate : Guarded step Separate { poller := {} } labels := by decide
  exact ⟨l, hl, hinvoked, (callbacks_in_place_iff {} labels l hl).1 hseparate⟩

/-- Two ready descriptors, of which the first callback removes the second: its callback is
invoked all the same. -/
theorem callback_after_removal :
    ¬ ∀ (p : EpollPoller ℕ) (labels : List (Label ℕ)) (l : EventLoop ℕ),
      run step { poller := p } labels = some l → AllInPlace l := by
  intro h
  let labels : List (Label ℕ) := [.call (.addFd 3 { read := true } (some 0)),
    .call (.addFd 4 { read := true } (some 1)),
    .poll [(3, { epollin := true }), (4, { epollin := true })],
    .next, .call (.removeFd 4), .next]
  have hend : (run step { poller := {} } labels).map EventLoop.invoked =
      some [(3, true), (4, false)] := by decide
  obtain ⟨l, hl, hinvoked⟩ := Option.map_eq_some_iff.mp hend
  have hplace := h {} labels l hl (4, false) (by simp [hinvoked])
  cases hplace

end TzzeroHttp.PollerBatch
