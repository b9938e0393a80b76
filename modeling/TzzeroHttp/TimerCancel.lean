import TzzeroHttp.TimerInvariant

/-! When a cancelled timer stays cancelled. `cancel_timer` searches the active set, and a
timer of the batch in progress is not in it: cancelling such a timer does nothing, and it is
still started, or put back if it repeats. -/
namespace TzzeroHttp.TimerCancel
open SortedSet TimerModel TimerInvariant Runs

/-- No start of a timer follows the return of a `cancel_timer` for it. -/
def CancelledStays (log : List Event) : Prop :=
  log.Pairwise fun x y => ∀ id now, x = .cancelled id → y ≠ .started id now

/-- The cancellations that work: the id has been given out, and it is not that of a timer of
the batch in progress that is still to be started or that repeats. -/
def Effective (q : TimerQueue) : Label → Prop
  | .cancelTimer id => id ≤ q.numCreated ∧ ∀ b ∈ q.calling, ∀ e ∈ b.expired,
      ∀ t ∈ q.heap e.address, t.sequence = id → e ∉ b.remaining ∧ t.repeats = false
  | _ => True

instance (q : TimerQueue) : ∀ l, Decidable (Effective q l)
  | .cancelTimer _ => inferInstanceAs (Decidable (_ ∧ _))
  | .addTimer .. | .createElsewhere | .beginBatch _ | .runNext | .endBatch _ => .isTrue trivial

/-- The timer cannot be started any more: its id is in the past, and if it still exists it is
a one-shot timer of the batch in progress whose callback has been started. -/
def Dead (q : TimerQueue) (id : ℕ) : Prop :=
  id ≤ q.numCreated ∧ ∀ a t, q.heap a = some t → t.sequence = id → t.repeats = false ∧
    ∃ b, q.calling = some b ∧ a ∈ b.expired.map Entry.address ∧ a ∉ b.remaining.map Entry.address

variable {q q' : TimerQueue} {id : ℕ}

theorem addTimer_dead (h : Dead q id) (now delay interval : ℚ) (a : Address) :
    Dead (q.addTimer now delay interval a) id := by
  obtain ⟨hheap, -, -, hcreated, hcalling, -⟩ := addTimer_fields q now delay interval a
  refine ⟨by rw [hcreated]; exact h.1.trans (Nat.le_succ _), fun b t hb hseq => ?_⟩
  rw [hheap] at hb
  rw [hcalling]
  by_cases hba : b = a
  · subst hba
    rw [Function.update_self] at hb
    obtain rfl := Option.some.inj hb
    have hle := h.1
    simp only at hseq
    omega
  · rw [Function.update_of_ne hba] at hb
    exact h.2 b t hb hseq

theorem cancelTimer_dead (h : Dead q id) {other : ℕ} (hq : q.cancelTimer other = some q') :
    Dead q' id := by
  obtain ⟨hheap, -, hcreated, hcalling, -, -⟩ := cancelTimer_fields hq
  refine ⟨h.1.trans hcreated.ge, fun b u hb hseq => ?_⟩
  rw [hcalling]
  exact h.2 b u (hheap b u hb) hseq

theorem beginBatch_dead (h : Dead q id) {now : ℚ} (hq : q.beginBatch now = some q') : Dead q' id := by
  obtain ⟨hnone, -, hheap, -, hcreated, -⟩ := beginBatch_fields hq
  refine ⟨by rw [hcreated]; exact h.1, fun a t ht hseq => ?_⟩
  rw [hheap] at ht
  obtain ⟨-, b, hb, -⟩ := h.2 a t ht hseq
  rw [hnone] at hb
  cases hb

theorem runNext_dead (h : Dead q id) (hq : q.runNext = some q') : Dead q' id := by
  obtain ⟨b, e, rest, t, hb, hrem, -, rfl⟩ := runNext_cases hq
  refine ⟨h.1, fun a u hu hseq => ?_⟩
  obtain ⟨hrep, b', hb', hexp, hnot⟩ := h.2 a u hu hseq
  obtain rfl : b = b' := Option.some.inj (hb.symm.trans hb')
  rw [hrem, List.map_cons, List.mem_cons, not_or] at hnot
  exact ⟨hrep, _, rfl, hexp, hnot.2⟩

theorem endBatch_dead (hgood : Good q) (h : Dead q id) {clock : ℚ} (hq : q.endBatch clock = some q') :
    Dead q' id := by
  obtain ⟨b, q₁, hb, -, hreset, hheap, -, -, hcreated, -⟩ := endBatch_cases hq
  obtain ⟨-, hheap₁, hcreated₁, -⟩ := resetEntries_spec (hgood.sound_append hb) hreset
  refine ⟨by rw [hcreated, hcreated₁]; exact h.1, fun a u hu hseq => ?_⟩
  rw [hheap, hheap₁] at hu
  rcases reset_eq_some hu with ⟨hnot, ht⟩ | ⟨-, t, ht, hrep, rfl⟩
  · obtain ⟨-, b', hb', hexp, -⟩ := h.2 a u ht hseq
    obtain rfl : b = b' := Option.some.inj (hb.symm.trans hb')
    exact absurd hexp hnot
  · obtain ⟨hone, -⟩ := h.2 a t ht hseq
    rw [hrep] at hone
    cases hone

theorem step_dead (hgood : Good q) (h : Dead q id) {l : Label} (hstep : step q l = some q') :
    Dead q' id := by
  cases l with
  | addTimer now delay interval a =>
    obtain ⟨-, -, rfl⟩ := addTimer_step hstep
    exact addTimer_dead h now delay interval a
  | createElsewhere =>
    obtain rfl := Option.some.inj hstep
    exact ⟨h.1.trans (Nat.le_succ _), h.2⟩
  | cancelTimer other => exact cancelTimer_dead h hstep
  | beginBatch now => exact beginBatch_dead h hstep
  | runNext => exact runNext_dead h hstep
  | endBatch clock => exact endBatch_dead hgood h hstep

/-- An effective cancellation. -/
theorem dead_of_effective (hgood : Good q) (hok : Effective q (.cancelTimer id))
    (hq : q.cancelTimer id = some q') : Dead q' id := by
  have hs := hgood.sound
  rcases cancelTimer_cases hq with ⟨hnone, rfl⟩ | ⟨a, t, hact, ht, rfl⟩
  · refine ⟨hok.1, fun a t ht hseq => ?_⟩
    rcases hs.live a t ht with hin | hout
    · exact absurd ((hs.active_iff a id).mpr ⟨t, ht, hseq, hin⟩) (hnone a)
    · cases hb : q.calling with
      | none => simp [outOf, hb] at hout
      | some b =>
        simp only [outOf, hb, Option.map_some, Option.getD_some] at hout hs
        obtain ⟨hnot, hrep⟩ := hok.2 b hb _ hout t ht hseq
        refine ⟨hrep, b, rfl, List.mem_map.mpr ⟨_, hout, rfl⟩, fun hrem => hnot ?_⟩
        obtain ⟨e, he, rfl⟩ := List.mem_map.mp hrem
        have hexp : e ∈ b.expired := (hgood.remaining b hb).subset he
        rwa [← hs.eq_of_address ht (.inr hexp)]
  · obtain ⟨u, hu, hseq, -⟩ := (hs.active_iff a id).mp hact
    obtain rfl : t = u := Option.some.inj (ht.symm.trans hu)
    refine ⟨hok.1, fun b v hv hvseq => ?_⟩
    by_cases hba : b = a
    · subst hba
      simp at hv
    · simp only [Function.update_of_ne hba] at hv
      exact absurd (hs.sequence_inj b a v t hv ht (hvseq.trans hseq.symm)) hba

theorem dead_not_next {b : Batch} {e : Entry} {rest : List Entry} {t : Timer} (h : Dead q id)
    (hb : q.calling = some b) (hrem : b.remaining = e :: rest) (ht : q.heap e.address = some t) :
    t.sequence ≠ id := by
  intro hseq
  obtain ⟨-, b', hb', -, hnot⟩ := h.2 e.address t ht hseq
  obtain rfl : b = b' := Option.some.inj (hb.symm.trans hb')
  simp [hrem] at hnot

/-- Every cancelled timer is dead, and none was started after its cancellation. -/
structure Settled (q : TimerQueue) : Prop where
  good : Good q
  dead : ∀ id, .cancelled id ∈ q.log → Dead q id
  stays : CancelledStays q.log

theorem cancelledStays_append {log : List Event} {ev : Event} (h : CancelledStays log)
    (hev : ∀ id now, ev = .started id now → .cancelled id ∉ log) : CancelledStays (log ++ [ev]) := by
  refine List.pairwise_append.mpr ⟨h, List.pairwise_singleton _ _, ?_⟩
  rintro x hx y hy id now rfl rfl
  obtain rfl := List.mem_singleton.mp hy
  exact hev id now rfl hx

theorem step_log {l : Label} (hgood : Good q) (hstep : step q l = some q') :
    q'.log = q.log ∨ ∃ ev, q'.log = q.log ++ [ev] ∧
      (∀ id, ev = .cancelled id → l = .cancelTimer id) ∧
      ∀ id now, ev = .started id now → ∃ b e rest t, q.calling = some b ∧ b.remaining = e :: rest ∧
        q.heap e.address = some t ∧ t.sequence = id := by
  cases l with
  | addTimer now delay interval a =>
    obtain ⟨-, -, rfl⟩ := addTimer_step hstep
    obtain ⟨-, -, -, -, -, hlog⟩ := addTimer_fields q now delay interval a
    exact .inr ⟨_, hlog, by simp, by simp⟩
  | createElsewhere =>
    obtain rfl := Option.some.inj hstep
    exact .inl rfl
  | cancelTimer id =>
    obtain ⟨-, -, -, -, -, hlog⟩ := cancelTimer_fields hstep
    exact .inr ⟨_, hlog, by simp, by simp⟩
  | beginBatch now =>
    obtain ⟨-, -, -, -, -, hlog, -⟩ := beginBatch_fields hstep
    exact .inl hlog
  | runNext =>
    obtain ⟨b, e, rest, t, hb, hrem, ht, rfl⟩ := runNext_cases hstep
    refine .inr ⟨_, rfl, by simp, ?_⟩
    rintro id now heq
    obtain ⟨rfl, -⟩ := Event.started.inj heq
    exact ⟨b, e, rest, t, hb, hrem, ht, rfl⟩
  | endBatch clock =>
    obtain ⟨b, q₁, hb, -, hreset, -, -, -, -, hlog, -⟩ := endBatch_cases hstep
    obtain ⟨-, -, -, hlog₁⟩ := resetEntries_spec (hgood.sound_append hb) hreset
    exact .inl (hlog.trans hlog₁)

theorem step_settled {l : Label} (h : Settled q) (hok : Effective q l) (hstep : step q l = some q') :
    Settled q' := by
  have hgood := step_good h.good hstep
  have hold : ∀ id, .cancelled id ∈ q.log → Dead q' id :=
    fun id hid => step_dead h.good (h.dead id hid) hstep
  rcases step_log h.good hstep with hlog | ⟨ev, hlog, hcancel, hstart⟩
  · exact ⟨hgood, by rwa [hlog], by rw [hlog]; exact h.stays⟩
  · refine ⟨hgood, fun id hid => ?_, ?_⟩
    · rw [hlog, List.mem_append, List.mem_singleton] at hid
      rcases hid with hid | hid
      · exact hold id hid
      · obtain rfl := hcancel id hid.symm
        exact dead_of_effective h.good hok hstep
    · rw [hlog]
      refine cancelledStays_append h.stays fun id now heq hid => ?_
      obtain ⟨b, e, rest, t, hb, hrem, ht, hseq⟩ := hstart id now heq
      exact dead_not_next (h.dead id hid) hb hrem ht hseq

/-- In every run whose cancellations are effective when they are made, no timer is started
after a `cancel_timer` for it has returned. -/
theorem cancelled_never_started (labels : List Label) (q : TimerQueue)
    (hok : Guarded step Effective {} labels) (hrun : run step {} labels = some q) :
    CancelledStays q.log := by
  have hsettled : Settled q :=
    run_invariant (fun _ _ _ h ha hs => step_settled h ha hs)
      ⟨initial_good, by simp, List.Pairwise.nil⟩ hok hrun
  exact hsettled.stays

/-- The second of two one-shot timers due together cancels the first, which has been started,
and a repeating one that is not due. -/
theorem cancelled_never_started_orderly :
    let labels : List Label := [.addTimer 0 1 0 16, .addTimer 0 1 0 32, .addTimer 0 5 1 48,
      .beginBatch 2, .runNext, .runNext, .cancelTimer 1, .cancelTimer 3, .endBatch 2, .beginBatch 9,
      .endBatch 9]
    ∃ q, run step {} labels = some q ∧ CancelledStays q.log := by
  intro labels
  have hok : Guarded step Effective {} labels := by decide +kernel
  obtain ⟨q, hq⟩ := Option.isSome_iff_exists.mp (show (run step {} labels).isSome by decide +kernel)
  exact ⟨q, hq, cancelled_never_started labels q hok hq⟩

/-- A repeating timer that cancels itself in its callback is started again by the next batch. -/
theorem cancelled_started_again :
    ¬ ∀ (labels : List Label) (q : TimerQueue), run step {} labels = some q →
      CancelledStays q.log := by
  intro h
  let labels : List Label := [.addTimer 0 1 1 16, .beginBatch 1, .runNext, .cancelTimer 1,
    .endBatch 1, .beginBatch 2, .runNext]
  have hlog : (run step {} labels).map TimerQueue.log =
      some [.added 1 ⟨1, 1, 1⟩, .started 1 1, .cancelled 1, .started 1 2] := by decide +kernel
  obtain ⟨q, hq, hlog⟩ := Option.map_eq_some_iff.mp hlog
  have hstays := h labels q hq
  rw [hlog] at hstays
  simp [CancelledStays] at hstays

end TzzeroHttp.TimerCancel
