import TzzeroHttp.TimerOwnership

/-! One call of `process_expired_timers`, from the reading of the clock to the last restart,
with callbacks that may add timers. It starts the timers that are due, and leaves the others
and those that were added meanwhile as they are. -/
namespace TzzeroHttp.TimerBatch
open SortedSet TimerModel TimerInvariant TimerOwnership Runs

def starts (events : List Event) : List (ℕ × ℚ) :=
  events.filterMap fun
    | .started id now => some (id, now)
    | _ => none

def additions (events : List Event) : List Timer :=
  events.filterMap fun
    | .added _ t => some t
    | _ => none

structure Present (q : TimerQueue) (a : Address) (t : Timer) : Prop where
  heap : q.heap a = some t
  timer : entry t.expiration a ∈ q.timers
  active : activeTimer a t.sequence ∈ q.activeTimers

/-- The timers that have expired at `now`, in the order of the set. -/
def due (q : TimerQueue) (now : ℚ) : List Timer :=
  (q.timers.toList.filter (·.when ≤ now)).filterMap fun e => q.heap e.address

/-- What goes on inside a batch whose callbacks cancel nothing. -/
def Adding : Label → Prop
  | .addTimer .. | .createElsewhere | .runNext => True
  | _ => False

def requested (labels : List Label) : List (ℚ × ℚ) :=
  labels.filterMap fun
    | .addTimer now delay interval _ => some (now + delay, interval)
    | _ => none

/-- What a whole batch does to the queue `q`. -/
structure Fired (q : TimerQueue) (now : ℚ) (labels : List Label) (events : List Event)
    (q' : TimerQueue) : Prop where
  log : q'.log = q.log ++ events
  started : starts events = (due q now).map fun t => (t.sequence, now)
  added : (additions events).map (fun t => (t.expiration, t.interval)) = requested labels
  idle : q'.calling = none
  oneShot : ∀ a t, Present q a t → t.expiration ≤ now → t.repeats = false →
    ∀ b u, q'.heap b = some u → u.sequence ≠ t.sequence
  repeating : ∀ a t, Present q a t → t.expiration ≤ now → t.repeats = true →
    Present q' a { t with expiration := now + t.interval }
  waiting : ∀ a t, Present q a t → now < t.expiration →
    Present q' a t ∧ t.sequence ∉ (starts events).map Prod.fst
  new : ∀ t ∈ additions events, (∃ a, Present q' a t) ∧ t.sequence ∉ (starts events).map Prod.fst
  only : ∀ a u, q'.heap a = some u → u ∈ additions events ∨ ∃ t, Present q a t ∧
    ((now < t.expiration ∧ u = t) ∨
      (t.expiration ≤ now ∧ t.repeats = true ∧ u = { t with expiration := now + t.interval }))

variable {q q' p p' : TimerQueue} {now : ℚ} {labels : List Label} {events : List Event}

theorem starts_append (a b : List Event) : starts (a ++ b) = starts a ++ starts b :=
  List.filterMap_append

theorem additions_append (a b : List Event) : additions (a ++ b) = additions a ++ additions b :=
  List.filterMap_append

theorem requested_append (a b : List Label) : requested (a ++ b) = requested a ++ requested b :=
  List.filterMap_append

theorem present_iff (h : Good q) (hidle : q.calling = none) {a : Address} {t : Timer} :
    Present q a t ↔ q.heap a = some t := by
  have hs := h.sound
  have hout : outOf q = [] := by simp [outOf, hidle]
  constructor
  · exact Present.heap
  · intro ht
    have hmem : entry t.expiration a ∈ q.timers := by
      rcases hs.live a t ht with hin | hbatch
      · exact hin
      · rw [hout] at hbatch
        exact absurd hbatch List.not_mem_nil
    exact ⟨ht, hmem, (hs.active_iff a t.sequence).mpr ⟨t, ht, rfl, hmem⟩⟩

/-- The sentinel pointer makes the cut inclusive. -/
theorem below_sentry (h : Good q) (now : ℚ) :
    q.timers.below (entry now uintptrMax) = q.timers.toList.filter (·.when ≤ now) := by
  apply OrderedSet.below_eq_filter
  intro e he
  obtain ⟨t, ht, -⟩ := h.sound.timers_heap e he
  have hlt := h.sound.address_lt _ t ht
  have hlex : e < entry now uintptrMax ↔
      e.when < now ∨ (e.when = now ∧ e.address < uintptrMax) := Prod.Lex.lt_iff
  rw [hlex, le_iff_lt_or_eq]
  simp [hlt]

theorem mem_due (h : Good q) (hidle : q.calling = none) {t : Timer} :
    t ∈ due q now ↔ ∃ a, Present q a t ∧ t.expiration ≤ now := by
  simp only [due, List.mem_filterMap, List.mem_filter, decide_eq_true_eq]
  constructor
  · rintro ⟨e, ⟨he, hwhen⟩, ht⟩
    obtain ⟨u, hu, hexp⟩ := h.sound.timers_heap e he
    obtain rfl : t = u := Option.some.inj (ht.symm.trans hu)
    exact ⟨e.address, (present_iff h hidle).mpr ht, hexp ▸ hwhen⟩
  · rintro ⟨a, hpresent, hle⟩
    exact ⟨entry t.expiration a, ⟨hpresent.timer, hle⟩, hpresent.heap⟩

theorem due_sorted (h : Good q) (now : ℚ) :
    (due q now).Pairwise fun t u => t.expiration ≤ u.expiration := by
  have hsorted : (q.timers.toList.filter (·.when ≤ now)).Pairwise (· < ·) :=
    q.timers.sorted.sublist List.filter_sublist
  rw [due, List.pairwise_filterMap]
  refine hsorted.imp_of_mem fun {e e'} he he' hlt t ht u hu => ?_
  have hexp : ∀ e ∈ q.timers.toList.filter (·.when ≤ now), ∀ t, q.heap e.address = some t →
      t.expiration = e.when := by
    intro e he t ht
    have heq := h.sound.eq_of_address ht (.inl (List.mem_of_mem_filter he))
    rw [heq]
    rfl
  rw [hexp e he t ht, hexp e' he' u hu]
  exact (Prod.Lex.le_iff.mp hlt.le).elim le_of_lt fun heq => heq.1.le

theorem due_nodup (h : Good q) (now : ℚ) : ((due q now).map Timer.sequence).Nodup := by
  have hnodup : (q.timers.toList.filter (·.when ≤ now)).Nodup :=
    q.timers.nodup.sublist List.filter_sublist
  rw [due, List.Nodup, List.pairwise_map, List.pairwise_filterMap]
  refine List.Pairwise.imp_of_mem (fun {e e'} he he' hne t ht u hu hseq => hne ?_) hnodup
  have hadd := h.sound.sequence_inj e.address e'.address t u ht hu hseq
  rw [hadd, hu] at ht
  obtain rfl := Option.some.inj ht
  rw [h.sound.eq_of_address hu (.inl (List.mem_of_mem_filter he')), ← hadd]
  exact h.sound.eq_of_address (by rw [hadd, hu]) (.inl (List.mem_of_mem_filter he))

/-- How far a batch of `q` has come: the callbacks in front of `rest` have been started, and
the timers that were added meanwhile are new ones. -/
structure During (q : TimerQueue) (now : ℚ) (labels : List Label) (events : List Event)
    (rest : List Entry) (p : TimerQueue) : Prop where
  good : Good p
  log : p.log = q.log ++ events
  calling : p.calling = some ⟨now, q.timers.below (entry now uintptrMax), rest⟩
  started : ∃ front, q.timers.below (entry now uintptrMax) = front ++ rest ∧
    starts events = (front.filterMap fun e => q.heap e.address).map fun t => (t.sequence, now)
  added : (additions events).map (fun t => (t.expiration, t.interval)) = requested labels
  old : ∀ a t, q.heap a = some t → p.heap a = some t
  heap : ∀ a t, p.heap a = some t → q.heap a = some t ∨ t ∈ additions events
  new : ∀ t ∈ additions events, (∃ a, p.heap a = some t ∧ q.heap a = none) ∧
    q.numCreated < t.sequence
  created : q.numCreated ≤ p.numCreated

theorem beginBatch_during (h : Good q) (hq : q.beginBatch now = some p) :
    During q now [] [] (q.timers.below (entry now uintptrMax)) p := by
  have hgood : Good p := step_good (l := .beginBatch now) h hq
  obtain ⟨-, hcalling, hheap, -, hcreated, hlog, -⟩ := beginBatch_fields hq
  constructor
  · exact hgood
  · rw [hlog, List.append_nil]
  · exact hcalling
  · exact ⟨[], rfl, rfl⟩
  · rfl
  · rw [hheap]
    exact fun _ _ ht => ht
  · rw [hheap]
    exact fun _ _ ht => .inl ht
  · simp [additions]
  · exact hcreated.ge

theorem addTimer_during {clock delay interval : ℚ} {a : Address} {rest : List Entry}
    (h : During q now labels events rest p)
    (hp : step p (.addTimer clock delay interval a) = some p') :
    ∃ t, During q now (labels ++ [.addTimer clock delay interval a])
      (events ++ [.added t.sequence t]) rest p' := by
  have hgood := step_good h.good hp
  obtain ⟨hfree, -, rfl⟩ := addTimer_step hp
  obtain ⟨hheap, -, -, hcreated, hcalling, hlog⟩ := addTimer_fields p clock delay interval a
  set t : Timer := ⟨clock + delay, interval, p.numCreated + 1⟩ with ht
  have hnew : additions (events ++ [.added t.sequence t]) = additions events ++ [t] :=
    additions_append events _
  have hkeep : ∀ b u, p.heap b = some u → (p.addTimer clock delay interval a).heap b = some u := by
    intro b u hb
    have hne : b ≠ a := by
      rintro rfl
      rw [hfree] at hb
      cases hb
    rw [hheap, Function.update_of_ne hne, hb]
  refine ⟨t, ?_⟩
  constructor
  · exact hgood
  · rw [hlog, h.log, List.append_assoc]
  · rw [hcalling, h.calling]
  · obtain ⟨front, hfront, hstarts⟩ := h.started
    refine ⟨front, hfront, ?_⟩
    rw [starts_append, hstarts]
    exact List.append_nil _
  · rw [hnew, List.map_append, h.added, requested_append]
    rfl
  · exact fun b u hb => hkeep b u (h.old b u hb)
  · intro b u hb
    rw [hnew, List.mem_append, List.mem_singleton]
    rw [hheap, update_eq_some] at hb
    rcases hb with ⟨-, hself⟩ | ⟨-, hb⟩
    · exact .inr (.inr (Option.some.inj hself).symm)
    · exact (h.heap b u hb).imp_right .inl
  · intro u hu
    rw [hnew, List.mem_append, List.mem_singleton] at hu
    rcases hu with hu | rfl
    · obtain ⟨⟨b, hb, hb'⟩, hseq⟩ := h.new u hu
      exact ⟨⟨b, hkeep b u hb, hb'⟩, hseq⟩
    · refine ⟨⟨a, by rw [hheap, Function.update_self], ?_⟩, Nat.lt_succ_of_le h.created⟩
      cases hqa : q.heap a with
      | none => rfl
      | some v =>
        rw [h.old a v hqa] at hfree
        cases hfree
  · rw [hcreated]
    exact h.created.trans (Nat.le_succ _)

theorem runNext_during {rest : List Entry} (h : During q now labels events rest p)
    (hq : Good q) (hp : p.runNext = some p') :
    ∃ e rest' id, rest = e :: rest' ∧ During q now (labels ++ [.runNext])
      (events ++ [.started id now]) rest' p' := by
  have hgood : Good p' := step_good (l := .runNext) h.good hp
  obtain ⟨b, e, rest', t, hb, hrem, ht, rfl⟩ := runNext_cases hp
  obtain rfl : _ = b := Option.some.inj (h.calling.symm.trans hb)
  obtain ⟨front, hfront, hstarts⟩ := h.started
  simp only at hrem
  subst hrem
  have hold : q.heap e.address = some t := by
    have he : e ∈ q.timers := by
      have hmem : e ∈ q.timers.below (entry now uintptrMax) := by simp [hfront]
      exact (OrderedSet.mem_below.mp hmem).1
    obtain ⟨u, hu, -⟩ := hq.sound.timers_heap e he
    rw [hu, ← ht, h.old _ u hu]
  refine ⟨e, rest', t.sequence, rfl, ?_⟩
  have hadditions : additions (events ++ [.started t.sequence now]) = additions events :=
    (additions_append events _).trans (List.append_nil _)
  constructor
  · exact hgood
  · rw [h.log, List.append_assoc]
  · rfl
  · refine ⟨front ++ [e], by simp [hfront], ?_⟩
    rw [starts_append, hstarts]
    simp [hold, starts]
  · rw [hadditions, h.added, requested_append]
    exact (List.append_nil _).symm
  · exact h.old
  · rw [hadditions]
    exact h.heap
  · rw [hadditions]
    exact h.new
  · exact h.created

theorem step_during {rest : List Entry} {l : Label} (hq : Good q)
    (h : During q now labels events rest p) (hl : Adding l) (hp : step p l = some p') :
    ∃ events' rest', During q now (labels ++ [l]) events' rest' p' := by
  cases l with
  | addTimer clock delay interval a =>
    obtain ⟨t, ht⟩ := addTimer_during h hp
    exact ⟨_, _, ht⟩
  | createElsewhere =>
    have hgood := step_good h.good hp
    obtain rfl := Option.some.inj hp
    refine ⟨events, rest, ?_⟩
    exact { h with
      good := hgood
      added := by
        rw [h.added, requested_append]
        exact (List.append_nil _).symm
      created := h.created.trans (Nat.le_succ _) }
  | runNext =>
    obtain ⟨-, rest', id, -, hnext⟩ := runNext_during h hq hp
    exact ⟨_, _, hnext⟩
  | cancelTimer id => exact hl.elim
  | beginBatch now => exact hl.elim
  | endBatch clock => exact hl.elim

theorem run_during (hq : Good q) {q₀ : TimerQueue} (hbegin : q.beginBatch now = some q₀)
    (hlabels : ∀ l ∈ labels, Adding l) (hrun : run step q₀ labels = some p) :
    ∃ events rest, During q now labels events rest p := by
  induction labels using List.reverseRecOn generalizing p with
  | nil =>
    obtain rfl := Option.some.inj hrun
    exact ⟨_, _, beginBatch_during hq hbegin⟩
  | append_singleton labels l ih =>
    obtain ⟨p₁, h₁, h₂⟩ := run_append.mp hrun
    obtain ⟨p₂, hstep, h₃⟩ := run_cons.mp h₂
    obtain rfl := Option.some.inj h₃
    obtain ⟨events, rest, hduring⟩ := ih (fun k hk => hlabels k (by simp [hk])) h₁
    exact step_during hq hduring (hlabels l (by simp)) hstep

/-- The pointers of the batch are those of the timers that are due. -/
theorem mem_batch_iff (hq : Good q) {a : Address} :
    a ∈ (q.timers.below (entry now uintptrMax)).map Entry.address ↔
      ∃ t, q.heap a = some t ∧ entry t.expiration a ∈ q.timers ∧ t.expiration ≤ now := by
  rw [below_sentry hq, List.mem_map]
  constructor
  · rintro ⟨e, he, rfl⟩
    obtain ⟨hmem, hle⟩ := List.mem_filter.mp he
    obtain ⟨t, ht, hexp⟩ := hq.sound.timers_heap e hmem
    refine ⟨t, ht, ?_, ?_⟩
    · rw [← hq.sound.eq_of_address ht (.inl hmem)]
      exact hmem
    · rw [hexp]
      simpa using hle
  · rintro ⟨t, -, hmem, hle⟩
    exact ⟨entry t.expiration a, List.mem_filter.mpr ⟨hmem, decide_eq_true hle⟩, rfl⟩

theorem endBatch_heap {clock : ℚ} (h : During q now labels events [] p)
    (hend : p.endBatch clock = some q') (a : Address) :
    q'.heap a = if a ∈ (q.timers.below (entry now uintptrMax)).map Entry.address then
      (p.heap a).bind (afterReset now) else p.heap a := by
  obtain ⟨b, p₁, hb, -, hreset, hheap, -⟩ := endBatch_cases hend
  obtain ⟨-, hreset, -⟩ := resetEntries_spec (h.good.sound_append hb) hreset
  obtain rfl : _ = b := Option.some.inj (h.calling.symm.trans hb)
  rw [hheap]
  exact hreset a

/-- A timer that was there is in the batch exactly when it is due. -/
theorem mem_batch_of_heap (hq : Good q) (hidle : q.calling = none) {a : Address} {t : Timer}
    (ht : q.heap a = some t) :
    a ∈ (q.timers.below (entry now uintptrMax)).map Entry.address ↔ t.expiration ≤ now := by
  rw [mem_batch_iff hq]
  constructor
  · rintro ⟨u, hu, -, hle⟩
    rwa [Option.some.inj (ht.symm.trans hu)]
  · exact fun hle => ⟨t, ht, ((present_iff hq hidle).mpr ht).timer, hle⟩

theorem not_mem_batch_of_free (hq : Good q) {a : Address} (hfree : q.heap a = none) :
    a ∉ (q.timers.below (entry now uintptrMax)).map Entry.address := by
  intro hmem
  obtain ⟨t, ht, -⟩ := (mem_batch_iff hq).mp hmem
  rw [hfree] at ht
  cases ht

section
variable {clock : ℚ} (hq : Good q) (hidle : q.calling = none)
  (h : During q now labels events [] p) (hend : p.endBatch clock = some q')
include hq hidle h hend

theorem endBatch_due {a : Address} {t : Timer} (ht : q.heap a = some t) (hle : t.expiration ≤ now) :
    q'.heap a = afterReset now t := by
  rw [endBatch_heap h hend, if_pos ((mem_batch_of_heap hq hidle ht).mpr hle), h.old a t ht,
    Option.bind_some]

theorem endBatch_waiting {a : Address} {t : Timer} (ht : q.heap a = some t)
    (hlt : now < t.expiration) : q'.heap a = some t := by
  have hnot := mt (mem_batch_of_heap hq hidle ht).mp (not_le.mpr hlt)
  rw [endBatch_heap h hend, if_neg hnot, h.old a t ht]

/-- What is on the heap afterwards. -/
theorem endBatch_only {a : Address} {u : Timer} (hu : q'.heap a = some u) :
    u ∈ additions events ∨ ∃ t, Present q a t ∧ ((now < t.expiration ∧ u = t) ∨
      (t.expiration ≤ now ∧ t.repeats = true ∧ u = { t with expiration := now + t.interval })) := by
  cases ht : q.heap a with
  | none =>
    left
    rw [endBatch_heap h hend, if_neg (not_mem_batch_of_free hq ht)] at hu
    refine (h.heap a u hu).resolve_left fun hold => ?_
    rw [ht] at hold
    cases hold
  | some t =>
    refine .inr ⟨t, (present_iff hq hidle).mpr ht, ?_⟩
    rcases lt_or_ge now t.expiration with hlt | hle
    · rw [endBatch_waiting hq hidle h hend ht hlt] at hu
      exact .inl ⟨hlt, (Option.some.inj hu).symm⟩
    · rw [endBatch_due hq hidle h hend ht hle, afterReset] at hu
      obtain ⟨hrep, hu⟩ := Option.ite_none_right_eq_some.mp hu
      exact .inr ⟨hle, hrep, (Option.some.inj hu).symm⟩

theorem endBatch_oneShot {a b : Address} {t u : Timer} (ht : q.heap a = some t)
    (hle : t.expiration ≤ now) (hrep : t.repeats = false) (hu : q'.heap b = some u) :
    u.sequence ≠ t.sequence := by
  intro hseq
  rcases endBatch_only hq hidle h hend hu with hadd | ⟨v, hv, hcase⟩
  · have hnew := (h.new u hadd).2
    have hold := hq.sound.sequence_le a t ht
    omega
  · have hvseq : v.sequence = t.sequence := by
      rcases hcase with ⟨-, rfl⟩ | ⟨-, -, rfl⟩ <;> exact hseq
    obtain rfl := hq.sound.sequence_inj b a v t hv.heap ht hvseq
    obtain rfl : t = v := Option.some.inj (ht.symm.trans hv.heap)
    rcases hcase with ⟨hlt, -⟩ | ⟨-, hrep', -⟩
    · exact not_le.mpr hlt hle
    · rw [hrep] at hrep'
      cases hrep'

end

theorem not_started_of {t : Timer} (hstarts : starts events = (due q now).map fun t => (t.sequence, now))
    (hdue : ∀ u ∈ due q now, u.sequence ≠ t.sequence) : t.sequence ∉ (starts events).map Prod.fst := by
  rw [hstarts, List.map_map]
  intro hmem
  obtain ⟨u, hu, hseq⟩ := List.mem_map.mp hmem
  exact hdue u hu hseq

/-- The end of the batch. -/
theorem endBatch_fired {clock : ℚ} {rest : List Entry} (hq : Good q) (hidle : q.calling = none)
    (h : During q now labels events rest p) (hend : p.endBatch clock = some q') :
    Fired q now labels events q' := by
  have hgood' : Good q' := step_good (l := .endBatch clock) h.good hend
  obtain ⟨b, p₁, hb, hrem, hreset, -, -, -, -, hlog, hidle'⟩ := endBatch_cases hend
  obtain ⟨-, -, -, hlog₁⟩ := resetEntries_spec (h.good.sound_append hb) hreset
  obtain rfl : _ = b := Option.some.inj (h.calling.symm.trans hb)
  simp only at hrem
  subst hrem
  have hstarts : starts events = (due q now).map fun t => (t.sequence, now) := by
    obtain ⟨front, hfront, hstarts⟩ := h.started
    rw [hstarts, due, ← below_sentry hq, hfront, List.append_nil]
  constructor
  · rw [hlog, hlog₁, h.log]
  · exact hstarts
  · exact h.added
  · exact hidle'
  · intro a t ht hle hrep b u hu
    exact endBatch_oneShot hq hidle h hend ht.heap hle hrep hu
  · intro a t ht hle hrep
    rw [present_iff hgood' hidle', endBatch_due hq hidle h hend ht.heap hle, afterReset, if_pos hrep]
  · intro a t ht hlt
    have hkept := endBatch_waiting hq hidle h hend ht.heap hlt
    refine ⟨(present_iff hgood' hidle').mpr hkept, not_started_of hstarts fun u hu hseq => ?_⟩
    obtain ⟨b, hb, hle⟩ := (mem_due hq hidle).mp hu
    obtain rfl := hq.sound.sequence_inj b a u t hb.heap ht.heap hseq
    rw [Option.some.inj (hb.heap.symm.trans ht.heap)] at hle
    exact not_le.mpr hlt hle
  · intro t ht
    obtain ⟨⟨a, ha, hfree⟩, hlt⟩ := h.new t ht
    have hkept : q'.heap a = some t := by
      rw [endBatch_heap h hend, if_neg (not_mem_batch_of_free hq hfree), ha]
    refine ⟨⟨a, (present_iff hgood' hidle').mpr hkept⟩, not_started_of hstarts fun u hu hseq => ?_⟩
    obtain ⟨b, hb, -⟩ := (mem_due hq hidle).mp hu
    have hold := hq.sound.sequence_le b u hb.heap
    omega
  · intro a u hu
    exact endBatch_only hq hidle h hend hu

theorem during_finishes {rest : List Entry} (hq : Good q) (h : During q now labels events rest p)
    (clock : ℚ) :
    (run step p (List.replicate rest.length .runNext ++ [.endBatch clock])).isSome := by
  induction rest generalizing p labels events with
  | nil =>
    have hend : (step p (.endBatch clock)).isSome := endBatch_isSome h.good h.calling rfl clock
    obtain ⟨q', hq'⟩ := Option.isSome_iff_exists.mp hend
    simp [run, hq']
  | cons e rest ih =>
    have hnext : (step p .runNext).isSome := runNext_isSome h.good h.calling (by simp)
    obtain ⟨p', hp'⟩ := Option.isSome_iff_exists.mp hnext
    obtain ⟨e', rest', id, hrest, hduring⟩ := runNext_during h hq hp'
    obtain ⟨-, rfl⟩ := List.cons.inj hrest
    rw [List.length_cons, List.replicate_succ, List.cons_append, run, hp', Option.bind_some]
    exact ih hduring

/-- A batch on a queue that satisfies its invariants, from a clock reading `now`: the due
timers are those present with an expiration up to `now`, in the order of their expirations and
each once; whatever its callbacks add, the batch can be brought to its end; and every batch
that ends has started the due timers in that order and left the queue as it should be. -/
theorem batch_fires_due (q : TimerQueue) (now : ℚ) (hq : Good q) (hidle : q.calling = none) :
    ((∀ t, t ∈ due q now ↔ ∃ a, Present q a t ∧ t.expiration ≤ now) ∧
      (due q now).Pairwise (fun t u => t.expiration ≤ u.expiration) ∧
      ((due q now).map Timer.sequence).Nodup) ∧
    (∃ q₀, step q (.beginBatch now) = some q₀ ∧ ∀ labels p clock, (∀ l ∈ labels, Adding l) →
      run step q₀ labels = some p →
      ∃ n, (run step p (List.replicate n .runNext ++ [.endBatch clock])).isSome) ∧
    ∀ labels clock q', (∀ l ∈ labels, Adding l) →
      run step q (.beginBatch now :: labels ++ [.endBatch clock]) = some q' →
      ∃ events, Fired q now labels events q' := by
  refine ⟨⟨fun t => mem_due hq hidle, due_sorted hq now, due_nodup hq now⟩, ?_, ?_⟩
  · obtain ⟨q₀, hbegin⟩ := Option.isSome_iff_exists.mp (beginBatch_isSome hq.sound hidle now)
    refine ⟨q₀, hbegin, fun labels p clock hlabels hrun => ?_⟩
    obtain ⟨events, rest, hduring⟩ := run_during hq hbegin hlabels hrun
    exact ⟨rest.length, during_finishes hq hduring clock⟩
  · intro labels clock q' hlabels hrun
    obtain ⟨q₀, hbegin, hrun⟩ := run_cons.mp hrun
    obtain ⟨p, hp, hlast⟩ := run_append.mp hrun
    obtain ⟨q₁, hend, hq₁⟩ := run_cons.mp hlast
    obtain rfl := Option.some.inj hq₁
    obtain ⟨events, rest, hduring⟩ := run_during hq hbegin hlabels hp
    exact ⟨events, endBatch_fired hq hidle hduring hend⟩

/-- Two timers that expire together, one that repeats; the first callback adds a timer with
no delay, which this batch does not start. -/
theorem batch_fires_due_tied :
    let before : List Label := [.addTimer 0 1 0 32, .addTimer 0 1 2 16, .addTimer 0 5 0 48]
    let inside : List Label := [.runNext, .addTimer 3 0 0 64, .runNext]
    ∃ q q', run step {} before = some q ∧ (due q 3).map Timer.sequence = [2, 1] ∧
      run step q (.beginBatch 3 :: inside ++ [.endBatch 4]) = some q' ∧
      ∃ events, Fired q 3 inside events q' := by
  intro before inside
  have hbefore : (run step {} before).map (fun q => ((due q 3).map Timer.sequence, q.calling.isNone,
      (run step q (.beginBatch 3 :: inside ++ [.endBatch 4])).isSome)) = some ([2, 1], true, true) := by
    decide +kernel
  obtain ⟨q, hq, hfacts⟩ := Option.map_eq_some_iff.mp hbefore
  simp only [Prod.mk.injEq, Option.isNone_iff_eq_none] at hfacts
  obtain ⟨hdue, hidle, hsome⟩ := hfacts
  obtain ⟨q', hq'⟩ := Option.isSome_iff_exists.mp hsome
  have hgood : Good q := run_preserves (fun _ _ _ h hs => step_good h hs) initial_good hq
  obtain ⟨-, -, hfired⟩ := batch_fires_due q 3 hgood hidle
  have hadding : ∀ l ∈ inside, Adding l := by simp [inside, Adding]
  exact ⟨q, q', hq, hdue, hq', hfired inside 4 q' hadding hq'⟩

end TzzeroHttp.TimerBatch
