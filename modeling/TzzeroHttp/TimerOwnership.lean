import TzzeroHttp.TimerInvariant

/-! Who owns a timer. The raw pointers of the queue are in `timers_` or in the batch that is
being processed: each live timer is there once, each pointer there is to a live timer, and
`active_timers_` repeats `timers_` under another key. So no operation follows a dangling
pointer, whatever the callbacks of a batch add or cancel. -/
namespace TzzeroHttp.TimerOwnership
open SortedSet TimerModel TimerInvariant Runs

def owners (q : TimerQueue) : List Address := (q.timers.toList ++ outOf q).map Entry.address

/-- The two sets describe the same timers; a timer is live exactly when one of `timers_` and
the batch holds it, and then it is held once. -/
structure Described (q : TimerQueue) : Prop where
  active : ∀ p, p ∈ q.activeTimers ↔
    ∃ e ∈ q.timers, ∃ t, q.heap e.address = some t ∧ p = activeTimer e.address t.sequence
  expiration : ∀ e ∈ q.timers, ∃ t, q.heap e.address = some t ∧ e.when = t.expiration
  live : ∀ a, (q.heap a).isSome ↔ a ∈ owners q
  once : (owners q).Nodup
  unprocessed : ∀ b, q.calling = some b → b.remaining <:+ outOf q

/-- Every operation that can be called finds a timer behind each pointer it follows. -/
structure Safe (q : TimerQueue) : Prop where
  cancelTimer : ∀ id, (q.cancelTimer id).isSome
  beginBatch : q.calling = none → ∀ now, (q.beginBatch now).isSome
  runNext : ∀ b, q.calling = some b → b.remaining ≠ [] → q.runNext.isSome
  endBatch : ∀ b, q.calling = some b → b.remaining = [] → ∀ clock, (q.endBatch clock).isSome

variable {q : TimerQueue} {out : List Entry}

theorem held_iff (h : Sound q out) (a : Address) :
    (q.heap a).isSome ↔ a ∈ (q.timers.toList ++ out).map Entry.address := by
  constructor
  · intro hsome
    obtain ⟨t, ht⟩ := Option.isSome_iff_exists.mp hsome
    have hmem : entry t.expiration a ∈ q.timers.toList ++ out := List.mem_append.mpr (h.live a t ht)
    exact List.mem_map_of_mem hmem
  · intro ha
    obtain ⟨e, he, rfl⟩ := List.mem_map.mp ha
    obtain ⟨t, ht, -⟩ := (List.mem_append.mp he).elim (h.timers_heap e) (h.out_heap e)
    exact Option.isSome_of_eq_some ht

theorem held_once (h : Sound q out) : ((q.timers.toList ++ out).map Entry.address).Nodup := by
  refine addresses_nodup (q := q) (q.timers.nodup.append h.out_nodup ?_) ?_
  · intro e he hout
    exact h.out_apart e hout he
  · intro e he
    exact (List.mem_append.mp he).elim (h.timers_heap e) (h.out_heap e)

theorem active_eq (h : Sound q out) (p : ActiveTimer) : p ∈ q.activeTimers ↔
    ∃ e ∈ q.timers, ∃ t, q.heap e.address = some t ∧ p = activeTimer e.address t.sequence := by
  rw [← activeTimer_eta p, h.active_iff]
  constructor
  · rintro ⟨t, ht, hseq, hmem⟩
    exact ⟨entry t.expiration (ofLex p).1, hmem, t, ht, by rw [hseq]; rfl⟩
  · rintro ⟨e, he, t, ht, heq⟩
    obtain ⟨hadd, hseq⟩ := activeTimer_inj.mp heq
    refine ⟨t, by rw [hadd]; exact ht, hseq.symm, ?_⟩
    rw [hadd, ← h.eq_of_address ht (.inl he)]
    exact he

theorem described_of_good (h : Good q) : Described q where
  active := active_eq h.sound
  expiration e he := by
    obtain ⟨t, ht, hexp⟩ := h.sound.timers_heap e he
    exact ⟨t, ht, hexp.symm⟩
  live := held_iff h.sound
  once := held_once h.sound
  unprocessed b hb := by
    have hsuffix := h.remaining b hb
    rw [outOf, hb]
    exact hsuffix

theorem cancelTimer_isSome (h : Sound q out) (id : ℕ) : (q.cancelTimer id).isSome := by
  unfold TimerQueue.cancelTimer TimerQueue.cancelInLoop
  cases hfind : q.activeTimers.toList.find? (fun p => (ofLex p).2 = id) with
  | none => rfl
  | some p =>
    obtain ⟨t, ht, -⟩ := (h.active_iff (ofLex p).1 (ofLex p).2).mp (List.mem_of_find?_eq_some hfind)
    simp [ht]

/-- The loop of `get_expired` only follows pointers, so it is enough that all are live. -/
theorem eraseActives_isSome {es : List Entry} (hes : ∀ e ∈ es, (q.heap e.address).isSome) :
    (es.foldlM TimerQueue.eraseActive q).isSome := by
  induction es generalizing q with
  | nil => rfl
  | cons e es ih =>
    obtain ⟨t, ht⟩ := Option.isSome_iff_exists.mp (hes e (by simp))
    rw [List.foldlM_cons, TimerQueue.eraseActive, ht]
    exact ih fun e' he' => hes e' (by simp [he'])

theorem beginBatch_isSome (h : Sound q out) (hcalling : q.calling = none) (now : ℚ) :
    (q.beginBatch now).isSome := by
  unfold TimerQueue.beginBatch TimerQueue.getExpired
  have hlive : ∀ e ∈ q.timers.below (entry now uintptrMax), (q.heap e.address).isSome := by
    intro e he
    obtain ⟨t, ht, -⟩ := h.timers_heap e (OrderedSet.mem_below.mp he).1
    exact Option.isSome_of_eq_some ht
  simp only [hcalling, Option.isSome_map]
  exact eraseActives_isSome (q := { q with timers := q.timers.notBelow _, calling := none }) hlive

theorem runNext_isSome (h : Good q) {b : Batch} (hb : q.calling = some b) (hrem : b.remaining ≠ []) :
    q.runNext.isSome := by
  obtain ⟨e, rest, hrest⟩ := List.exists_cons_of_ne_nil hrem
  have he : e ∈ b.expired := (h.remaining b hb).mem (by simp [hrest])
  obtain ⟨t, ht, -⟩ := (h.sound_batch hb).out_heap e he
  simp [TimerQueue.runNext, hb, hrest, ht]

theorem resetEntries_isSome {es : List Entry} (h : Sound q es) (now : ℚ) :
    (q.resetEntries now es).isSome := by
  induction es generalizing q with
  | nil => rfl
  | cons e es ih =>
    obtain ⟨t, ht, -⟩ := h.out_heap e (by simp)
    have hsome : (TimerQueue.resetEntry now q e).isSome := by simp [TimerQueue.resetEntry, ht]
    obtain ⟨q₁, h₁⟩ := Option.isSome_iff_exists.mp hsome
    have hrest := ih (resetEntry_sound h h₁)
    unfold TimerQueue.resetEntries at hrest ⊢
    rw [List.foldlM_cons, h₁]
    exact hrest

theorem endBatch_isSome (h : Good q) {b : Batch} (hb : q.calling = some b) (hrem : b.remaining = [])
    (clock : ℚ) : (q.endBatch clock).isSome := by
  obtain ⟨q₁, h₁⟩ := Option.isSome_iff_exists.mp (resetEntries_isSome (h.sound_batch hb) b.now)
  obtain ⟨hsound, -⟩ := resetEntries_spec (h.sound_append hb) h₁
  unfold TimerQueue.endBatch
  simp only [hb, Option.bind_some, if_pos hrem, h₁]
  split
  · rfl
  · next e es htimers =>
    obtain ⟨t, ht, -⟩ := hsound.timers_heap e (by
      show e ∈ q₁.timers.toList
      rw [htimers]
      exact List.mem_cons_self)
    simp [ht]

theorem safe_of_good (h : Good q) : Safe q where
  cancelTimer := cancelTimer_isSome h.sound
  beginBatch := beginBatch_isSome h.sound
  runNext _ := runNext_isSome h
  endBatch _ := endBatch_isSome h

/-- In every state of every run the two sets describe the same timers, every live timer has
one owner, and no operation can follow a pointer to a deleted one. -/
theorem timers_described (labels : List Label) (q : TimerQueue) (hrun : run step {} labels = some q) :
    Described q ∧ Safe q := by
  have hgood : Good q := run_preserves (fun _ _ _ h hs => step_good h hs) initial_good hrun
  exact ⟨described_of_good hgood, safe_of_good hgood⟩

/-- The first callback of a batch cancels itself, the second timer of the batch and one that
waits, and adds a timer at the address that the last cancellation freed. -/
theorem timers_described_reentrant :
    let labels : List Label := [.addTimer 0 1 0 16, .addTimer 0 1 2 32, .addTimer 0 5 0 48,
      .beginBatch 3, .runNext, .cancelTimer 1, .cancelTimer 2, .cancelTimer 3, .addTimer 3 1 1 48]
    ∃ q, run step {} labels = some q ∧ owners q = [48, 16, 32] ∧ Described q ∧ Safe q := by
  intro labels
  have howners : (run step {} labels).map owners = some [48, 16, 32] := by decide +kernel
  obtain ⟨q, hq, ho⟩ := Option.map_eq_some_iff.mp howners
  exact ⟨q, hq, ho, timers_described labels q hq⟩

end TzzeroHttp.TimerOwnership
