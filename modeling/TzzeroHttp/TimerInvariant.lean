import TzzeroHttp.TimerModel
import TzzeroHttp.Runs

/-! What holds of the timer queue between any two steps: both sets describe the same live
timers, and the timers of the current batch are the live ones that are in neither. -/
namespace TzzeroHttp.TimerInvariant
open SortedSet TimerModel Runs

@[simp] theorem address_entry (w : ℚ) (a : Address) : (entry w a).address = a := rfl
@[simp] theorem entry_eta (e : Entry) : entry e.when e.address = e := rfl

theorem entry_inj {v w : ℚ} {a b : Address} : entry v a = entry w b ↔ v = w ∧ a = b := by
  simp [entry]

theorem activeTimer_inj {a b : Address} {m n : ℕ} : activeTimer a m = activeTimer b n ↔ a = b ∧ m = n := by
  simp [activeTimer]

theorem activeTimer_eta (p : ActiveTimer) : activeTimer (ofLex p).1 (ofLex p).2 = p := rfl

structure Sound (q : TimerQueue) (out : List Entry) : Prop where
  timers_heap : ∀ e ∈ q.timers, ∃ t, q.heap e.address = some t ∧ t.expiration = e.when
  active_iff : ∀ a n, activeTimer a n ∈ q.activeTimers ↔
    ∃ t, q.heap a = some t ∧ t.sequence = n ∧ entry t.expiration a ∈ q.timers
  live : ∀ a t, q.heap a = some t → entry t.expiration a ∈ q.timers ∨ entry t.expiration a ∈ out
  out_heap : ∀ e ∈ out, ∃ t, q.heap e.address = some t ∧ t.expiration = e.when
  out_apart : ∀ e ∈ out, e ∉ q.timers
  out_nodup : out.Nodup
  sequence_inj : ∀ a b t u, q.heap a = some t → q.heap b = some u → t.sequence = u.sequence → a = b
  sequence_le : ∀ a t, q.heap a = some t → t.sequence ≤ q.numCreated
  address_lt : ∀ a t, q.heap a = some t → a < uintptrMax

variable {q q' : TimerQueue} {out : List Entry}

theorem Sound.eq_of_address (h : Sound q out) {e : Entry} {t : Timer} (ht : q.heap e.address = some t)
    (he : e ∈ q.timers ∨ e ∈ out) : e = entry t.expiration e.address := by
  obtain ⟨u, hu, hexp⟩ := he.elim (h.timers_heap e) (h.out_heap e)
  obtain rfl : t = u := Option.some.inj (ht.symm.trans hu)
  rw [hexp, entry_eta]

/-- The invariant reads only the heap, the two sets and the counter. -/
theorem Sound.congr (h : Sound q out) (hheap : q'.heap = q.heap) (htimers : q'.timers = q.timers)
    (hactive : q'.activeTimers = q.activeTimers) (hcreated : q.numCreated ≤ q'.numCreated) :
    Sound q' out where
  timers_heap := by
    rw [htimers, hheap]
    exact h.timers_heap
  active_iff := by
    rw [hactive, htimers, hheap]
    exact h.active_iff
  live := by
    rw [htimers, hheap]
    exact h.live
  out_heap := by
    rw [hheap]
    exact h.out_heap
  out_apart := by
    rw [htimers]
    exact h.out_apart
  out_nodup := h.out_nodup
  sequence_inj := by
    rw [hheap]
    exact h.sequence_inj
  sequence_le := by
    rw [hheap]
    exact fun a t ht => (h.sequence_le a t ht).trans hcreated
  address_lt := by
    rw [hheap]
    exact h.address_lt

theorem update_eq_some {heap : Address → Option Timer} {a b : Address} {o : Option Timer} {u : Timer} :
    Function.update heap a o b = some u ↔ (b = a ∧ o = some u) ∨ (b ≠ a ∧ heap b = some u) := by
  by_cases hba : b = a
  · subst hba
    simp
  · simp [hba]

theorem Sound.put (h : Sound q out) {a : Address} {t : Timer} (hfree : q.heap a = none)
    (hlt : a < uintptrMax) (hnew : ∀ b u, q.heap b = some u → u.sequence ≠ t.sequence)
    (hheap : q'.heap = Function.update q.heap a (some t))
    (htimers : q'.timers = q.timers.insert (entry t.expiration a))
    (hactive : q'.activeTimers = q.activeTimers.insert (activeTimer a t.sequence))
    (hcreated : q.numCreated ≤ q'.numCreated) (hle : t.sequence ≤ q'.numCreated) : Sound q' out := by
  have hother : ∀ b u, q.heap b = some u → b ≠ a := by
    rintro b u hb rfl
    rw [hfree] at hb
    cases hb
  have hkeep : ∀ b u, q.heap b = some u → q'.heap b = some u := by
    intro b u hb
    rw [hheap, Function.update_of_ne (hother b u hb), hb]
  have hcases : ∀ b u, q'.heap b = some u → (b = a ∧ u = t) ∨ (b ≠ a ∧ q.heap b = some u) := by
    intro b u hb
    rw [hheap, update_eq_some] at hb
    exact hb.imp_left fun hself => ⟨hself.1, (Option.some.inj hself.2).symm⟩
  have hself : q'.heap a = some t := by rw [hheap, Function.update_self]
  constructor
  · intro e he
    rw [htimers, OrderedSet.mem_insert] at he
    rcases he with rfl | he
    · exact ⟨t, hself, rfl⟩
    · obtain ⟨u, hu, hexp⟩ := h.timers_heap e he
      exact ⟨u, hkeep _ u hu, hexp⟩
  · intro b n
    rw [hactive, OrderedSet.mem_insert, htimers, activeTimer_inj, h.active_iff]
    constructor
    · rintro (⟨rfl, rfl⟩ | ⟨u, hu, rfl, hmem⟩)
      · exact ⟨t, hself, rfl, by simp⟩
      · exact ⟨u, hkeep b u hu, rfl, by simp [hmem]⟩
    · rintro ⟨u, hu, rfl, hmem⟩
      rcases hcases b u hu with ⟨rfl, rfl⟩ | ⟨hba, hu'⟩
      · exact .inl ⟨rfl, rfl⟩
      · rw [OrderedSet.mem_insert, entry_inj] at hmem
        exact .inr ⟨u, hu', rfl, hmem.resolve_left fun he => hba he.2⟩
  · intro b u hb
    rw [htimers, OrderedSet.mem_insert]
    rcases hcases b u hb with ⟨rfl, rfl⟩ | ⟨-, hu⟩
    · exact .inl (.inl rfl)
    · exact (h.live b u hu).imp .inr id
  · intro e he
    obtain ⟨u, hu, hexp⟩ := h.out_heap e he
    exact ⟨u, hkeep _ u hu, hexp⟩
  · intro e he hmem
    rw [htimers, OrderedSet.mem_insert] at hmem
    obtain ⟨u, hu, -⟩ := h.out_heap e he
    rcases hmem with rfl | hmem
    · exact hother _ u hu rfl
    · exact h.out_apart e he hmem
  · exact h.out_nodup
  · intro b c u v hb hc hseq
    rcases hcases b u hb with ⟨rfl, rfl⟩ | ⟨-, hu⟩ <;> rcases hcases c v hc with ⟨rfl, rfl⟩ | ⟨-, hv⟩
    · rfl
    · exact absurd hseq.symm (hnew c v hv)
    · exact absurd hseq (hnew b u hu)
    · exact h.sequence_inj b c u v hu hv hseq
  · intro b u hb
    rcases hcases b u hb with ⟨rfl, rfl⟩ | ⟨-, hu⟩
    · exact hle
    · exact (h.sequence_le b u hu).trans hcreated
  · intro b u hb
    rcases hcases b u hb with ⟨rfl, rfl⟩ | ⟨-, hu⟩
    · exact hlt
    · exact h.address_lt b u hu

theorem Sound.takeOut (h : Sound q out) {es : List Entry} (hes : ∀ e ∈ es, e ∈ q.timers)
    (hnodup : es.Nodup) (hheap : q'.heap = q.heap) (hcreated : q'.numCreated = q.numCreated)
    (htimers : ∀ e, e ∈ q'.timers ↔ e ∈ q.timers ∧ e ∉ es)
    (hactive : ∀ p, p ∈ q'.activeTimers ↔ p ∈ q.activeTimers ∧
      ∀ e ∈ es, ∀ t, q.heap e.address = some t → p ≠ activeTimer e.address t.sequence) :
    Sound q' (es ++ out) := by
  constructor
  · intro e he
    rw [hheap]
    exact h.timers_heap e ((htimers e).mp he).1
  · intro a n
    rw [hactive, h.active_iff, hheap]
    constructor
    · rintro ⟨⟨t, ht, rfl, hmem⟩, hnot⟩
      refine ⟨t, ht, rfl, (htimers _).mpr ⟨hmem, fun he => ?_⟩⟩
      exact hnot _ he t ht rfl
    · rintro ⟨t, ht, rfl, hmem⟩
      obtain ⟨hmem, hnot⟩ := (htimers _).mp hmem
      refine ⟨⟨t, ht, rfl, hmem⟩, fun e he u hu heq => hnot ?_⟩
      obtain ⟨rfl, -⟩ := activeTimer_inj.mp heq
      obtain rfl : t = u := Option.some.inj (ht.symm.trans hu)
      rw [← h.eq_of_address ht (.inl (hes e he))]
      exact he
  · intro a t ht
    rw [hheap] at ht
    by_cases he : entry t.expiration a ∈ es
    · exact .inr (by simp [he])
    · exact (h.live a t ht).imp (fun hm => (htimers _).mpr ⟨hm, he⟩) fun hm => by simp [hm]
  · intro e he
    rw [hheap]
    rcases List.mem_append.mp he with he | he
    · exact h.timers_heap e (hes e he)
    · exact h.out_heap e he
  · intro e he hmem
    obtain ⟨hmem, hnot⟩ := (htimers e).mp hmem
    rcases List.mem_append.mp he with he | he
    · exact hnot he
    · exact h.out_apart e he hmem
  · exact hnodup.append h.out_nodup fun e he he' => h.out_apart e he' (hes e he)
  · rw [hheap]
    exact h.sequence_inj
  · rw [hheap, hcreated]
    exact h.sequence_le
  · rw [hheap]
    exact h.address_lt

theorem Sound.drop {e : Entry} (h : Sound q (e :: out))
    (hheap : q'.heap = Function.update q.heap e.address none) (htimers : q'.timers = q.timers)
    (hactive : q'.activeTimers = q.activeTimers) (hcreated : q'.numCreated = q.numCreated) :
    Sound q' out := by
  obtain ⟨t, ht, hexp⟩ := h.out_heap e (by simp)
  have hback : ∀ b u, q'.heap b = some u → b ≠ e.address ∧ q.heap b = some u := by
    intro b u hb
    rw [hheap, update_eq_some] at hb
    exact hb.resolve_left fun hgone => nomatch hgone.2
  have hkeep : ∀ e' u, e' ∈ q.timers ∨ e' ∈ out → q.heap e'.address = some u →
      q'.heap e'.address = some u := by
    intro e' u he' hu
    have hne : e'.address ≠ e.address := by
      intro hadd
      have hsame : e' = e := by
        rw [h.eq_of_address hu (he'.imp_right fun hm => by simp [hm]), hadd]
        rw [hadd, ht] at hu
        rw [← Option.some.inj hu, hexp, entry_eta]
      subst hsame
      rcases he' with hm | hm
      · exact h.out_apart e' (by simp) hm
      · exact (List.nodup_cons.mp h.out_nodup).1 hm
    rw [hheap, Function.update_of_ne hne, hu]
  constructor
  · intro e' he'
    rw [htimers] at he'
    obtain ⟨u, hu, hw⟩ := h.timers_heap e' he'
    exact ⟨u, hkeep e' u (.inl he') hu, hw⟩
  · intro a n
    rw [hactive, h.active_iff, htimers]
    constructor
    · rintro ⟨u, hu, rfl, hmem⟩
      exact ⟨u, hkeep (entry u.expiration a) u (.inl hmem) hu, rfl, hmem⟩
    · rintro ⟨u, hu, rfl, hmem⟩
      exact ⟨u, (hback a u hu).2, rfl, hmem⟩
  · intro a u hu
    obtain ⟨hne, hu⟩ := hback a u hu
    rw [htimers]
    refine (h.live a u hu).imp_right fun hm => ?_
    rcases List.mem_cons.mp hm with heq | hm
    · exact absurd (congrArg Entry.address heq) hne
    · exact hm
  · intro e' he'
    obtain ⟨u, hu, hw⟩ := h.out_heap e' (by simp [he'])
    exact ⟨u, hkeep e' u (.inr he') hu, hw⟩
  · intro e' he'
    rw [htimers]
    exact h.out_apart e' (by simp [he'])
  · exact (List.nodup_cons.mp h.out_nodup).2
  · intro a b u v hu hv
    exact h.sequence_inj a b u v (hback a u hu).2 (hback b v hv).2
  · intro a u hu
    rw [hcreated]
    exact h.sequence_le a u (hback a u hu).2
  · intro a u hu
    exact h.address_lt a u (hback a u hu).2

theorem addTimer_fields (q : TimerQueue) (now delay interval : ℚ) (a : Address) :
    let t : Timer := ⟨now + delay, interval, q.numCreated + 1⟩
    let r := q.addTimer now delay interval a
    r.heap = Function.update q.heap a (some t) ∧ r.timers = q.timers.insert (entry t.expiration a) ∧
      r.activeTimers = q.activeTimers.insert (activeTimer a t.sequence) ∧
      r.numCreated = q.numCreated + 1 ∧ r.calling = q.calling ∧
      r.log = q.log ++ [.added t.sequence t] := by
  unfold TimerQueue.addTimer
  simp only
  split_ifs <;> exact ⟨rfl, rfl, rfl, rfl, rfl, rfl⟩

theorem addTimer_sound (h : Sound q out) (now delay interval : ℚ) {a : Address}
    (hfree : q.heap a = none) (hlt : a < uintptrMax) : Sound (q.addTimer now delay interval a) out := by
  obtain ⟨hheap, htimers, hactive, hcreated, -, -⟩ := addTimer_fields q now delay interval a
  refine h.put hfree hlt (fun b u hb => ?_) hheap htimers hactive (by omega) (by simp [hcreated])
  have := h.sequence_le b u hb
  simp only
  omega

/-- `cancel_timer` finds no active timer with the id, or deletes the one it finds. -/
theorem cancelTimer_cases {id : ℕ} (h : q.cancelTimer id = some q') :
    ((∀ a, activeTimer a id ∉ q.activeTimers) ∧ q' = { q with log := q.log ++ [.cancelled id] }) ∨
    ∃ a t, activeTimer a id ∈ q.activeTimers ∧ q.heap a = some t ∧ q' = { q with
      activeTimers := q.activeTimers.erase (activeTimer a id),
      timers := q.timers.erase (entry t.expiration a), heap := Function.update q.heap a none,
      log := q.log ++ [.cancelled id] } := by
  unfold TimerQueue.cancelTimer TimerQueue.cancelInLoop at h
  cases hfind : q.activeTimers.toList.find? (fun p => (ofLex p).2 = id) with
  | none =>
    rw [hfind] at h
    refine .inl ⟨fun a ha => ?_, (Option.some.inj h).symm⟩
    have hno := List.find?_eq_none.mp hfind (activeTimer a id) ha
    simp [activeTimer] at hno
  | some p =>
    have hmem : p ∈ q.activeTimers := List.mem_of_find?_eq_some hfind
    have hid : (ofLex p).2 = id := by simpa using List.find?_some hfind
    have hp : activeTimer (ofLex p).1 id = p := by rw [← hid, activeTimer_eta]
    simp only [hfind, Option.map_map, Option.map_eq_some_iff] at h
    obtain ⟨t, ht, rfl⟩ := h
    exact .inr ⟨(ofLex p).1, t, by rw [hp]; exact hmem, ht, by rw [hp]; rfl⟩

/-- What both outcomes of a cancellation have in common. -/
theorem cancelTimer_fields {id : ℕ} (h : q.cancelTimer id = some q') :
    (∀ a t, q'.heap a = some t → q.heap a = some t) ∧ (∀ e ∈ q'.timers, e ∈ q.timers) ∧
      q'.numCreated = q.numCreated ∧ q'.calling = q.calling ∧ q'.armed = q.armed ∧
      q'.log = q.log ++ [.cancelled id] := by
  rcases cancelTimer_cases h with ⟨-, rfl⟩ | ⟨a, t, -, -, rfl⟩
  · exact ⟨fun _ _ hu => hu, fun _ he => he, rfl, rfl, rfl, rfl⟩
  · refine ⟨fun b u hu => ?_, fun e he => (OrderedSet.mem_erase.mp he).2, rfl, rfl, rfl, rfl⟩
    simp only [update_eq_some] at hu
    exact (hu.resolve_left fun hgone => nomatch hgone.2).2

theorem cancelTimer_sound (h : Sound q out) {id : ℕ} (hq : q.cancelTimer id = some q') :
    Sound q' out := by
  rcases cancelTimer_cases hq with ⟨-, rfl⟩ | ⟨a, t, hact, ht, rfl⟩
  · exact { h with }
  · obtain ⟨u, hu, hseq, hmem⟩ := (h.active_iff a id).mp hact
    obtain rfl : t = u := Option.some.inj (ht.symm.trans hu)
    have hout : Sound { q with
        activeTimers := q.activeTimers.erase (activeTimer a id),
        timers := q.timers.erase (entry t.expiration a) } ([entry t.expiration a] ++ out) := by
      refine h.takeOut (by simpa using hmem) (List.nodup_singleton _) rfl rfl ?_ ?_
      · intro e
        simp [and_comm]
      · intro p
        simp only [OrderedSet.mem_erase, List.mem_singleton, forall_eq, address_entry, ht,
          Option.some.injEq]
        constructor
        · rintro ⟨hne, hp⟩
          exact ⟨hp, fun v hv => by rw [← hv, hseq]; exact hne⟩
        · rintro ⟨hp, hne⟩
          exact ⟨by rw [← hseq]; exact hne t rfl, hp⟩
    exact hout.drop rfl rfl rfl rfl

theorem eraseActives {es : List Entry} (h : es.foldlM TimerQueue.eraseActive q = some q') :
    q' = { q with activeTimers := q'.activeTimers } ∧
      ∀ p, p ∈ q'.activeTimers ↔ p ∈ q.activeTimers ∧
        ∀ e ∈ es, ∀ t, q.heap e.address = some t → p ≠ activeTimer e.address t.sequence := by
  induction es generalizing q with
  | nil =>
    obtain rfl := Option.some.inj h
    exact ⟨rfl, by simp⟩
  | cons e es ih =>
    rw [List.foldlM_cons] at h
    obtain ⟨q₁, h₁, h₂⟩ := Option.bind_eq_some_iff.mp h
    obtain ⟨t, ht, rfl⟩ := Option.map_eq_some_iff.mp h₁
    obtain ⟨heq, hmem⟩ := ih h₂
    refine ⟨heq, fun p => ?_⟩
    rw [hmem]
    simp only [OrderedSet.mem_erase, List.mem_cons, forall_eq_or_imp, ht, Option.some.injEq,
      forall_eq', and_assoc]
    exact and_left_comm

theorem beginBatch_fields {now : ℚ} (h : q.beginBatch now = some q') :
    let sentry := entry now uintptrMax
    let expired := q.timers.below sentry
    q.calling = none ∧ q'.calling = some ⟨now, expired, expired⟩ ∧ q'.heap = q.heap ∧
      q'.timers = q.timers.notBelow sentry ∧ q'.numCreated = q.numCreated ∧ q'.log = q.log ∧
      ∀ p, p ∈ q'.activeTimers ↔ p ∈ q.activeTimers ∧
        ∀ e ∈ expired, ∀ t, q.heap e.address = some t → p ≠ activeTimer e.address t.sequence := by
  unfold TimerQueue.beginBatch TimerQueue.getExpired at h
  cases hc : q.calling with
  | some b => simp [hc] at h
  | none =>
    simp only [hc, Option.map_map, Option.map_eq_some_iff] at h
    obtain ⟨q₁, h₁, rfl⟩ := h
    obtain ⟨heq, hmem⟩ := eraseActives h₁
    rw [heq]
    exact ⟨rfl, rfl, rfl, rfl, rfl, rfl, hmem⟩

theorem beginBatch_sound (h : Sound q out) {now : ℚ} (hq : q.beginBatch now = some q') :
    Sound q' (q.timers.below (entry now uintptrMax) ++ out) := by
  obtain ⟨-, -, hheap, htimers, hcreated, -, hactive⟩ := beginBatch_fields hq
  have hes : ∀ e ∈ q.timers.below (entry now uintptrMax), e ∈ q.timers :=
    fun e he => (OrderedSet.mem_below.mp he).1
  refine h.takeOut hes
    (q.timers.nodup.sublist (List.takeWhile_sublist _)) hheap hcreated (fun e => ?_) hactive
  rw [htimers, OrderedSet.mem_notBelow, OrderedSet.mem_below]
  constructor
  · rintro ⟨he, hle⟩
    exact ⟨he, fun hlt => not_lt.mpr hle hlt.2⟩
  · rintro ⟨he, hnot⟩
    exact ⟨he, not_lt.mp fun hlt => hnot ⟨he, hlt⟩⟩

def afterReset (now : ℚ) (t : Timer) : Option Timer :=
  if t.repeats then some { t with expiration := now + t.interval } else none

theorem afterReset_eq_some {now : ℚ} {t u : Timer} : afterReset now t = some u ↔
    t.repeats = true ∧ u = { t with expiration := now + t.interval } := by
  rw [afterReset, Option.ite_none_right_eq_some, Option.some.injEq, eq_comm (a := u)]

theorem reset_eq_some {now : ℚ} {p : Prop} [Decidable p] {o : Option Timer} {u : Timer}
    (h : (if p then o.bind (afterReset now) else o) = some u) : (¬ p ∧ o = some u) ∨
      (p ∧ ∃ t, o = some t ∧ t.repeats = true ∧ u = { t with expiration := now + t.interval }) := by
  by_cases hp : p
  · rw [if_pos hp] at h
    obtain ⟨t, ht, hu⟩ := Option.bind_eq_some_iff.mp h
    exact .inr ⟨hp, t, ht, afterReset_eq_some.mp hu⟩
  · rw [if_neg hp] at h
    exact .inl ⟨hp, h⟩

theorem resetEntry_fields {now : ℚ} {e : Entry} (h : TimerQueue.resetEntry now q e = some q') :
    q'.heap = Function.update q.heap e.address ((q.heap e.address).bind (afterReset now)) ∧
      q'.numCreated = q.numCreated ∧ q'.log = q.log := by
  obtain ⟨t, ht, rfl⟩ := Option.map_eq_some_iff.mp h
  rw [ht]
  by_cases hrep : t.repeats = true
  · simp [TimerQueue.insert, afterReset, Timer.restart, hrep]
  · simp [afterReset, hrep]

theorem resetEntry_sound {now : ℚ} {e : Entry} {es : List Entry} (h : Sound q (e :: es))
    (hq : TimerQueue.resetEntry now q e = some q') : Sound q' es := by
  obtain ⟨t, ht, rfl⟩ := Option.map_eq_some_iff.mp hq
  have hdrop : Sound { q with heap := Function.update q.heap e.address none } es :=
    h.drop rfl rfl rfl rfl
  by_cases hrep : t.repeats = true
  · simp only [if_pos hrep, TimerQueue.insert]
    refine hdrop.put (a := e.address) (t := t.restart now) (by simp) (h.address_lt _ t ht) ?_
      (by simp) rfl rfl le_rfl (h.sequence_le _ t ht)
    intro b u hb hseq
    by_cases hbe : b = e.address
    · subst hbe
      simp at hb
    · simp only [Function.update_of_ne hbe] at hb
      exact hbe (h.sequence_inj b e.address u t hb ht hseq)
  · simp only [if_neg hrep]
    exact hdrop

theorem addresses_nodup {es : List Entry} (hnodup : es.Nodup)
    (hes : ∀ e ∈ es, ∃ t, q.heap e.address = some t ∧ t.expiration = e.when) :
    (es.map Entry.address).Nodup := by
  refine hnodup.map_on fun e he e' he' hadd => ?_
  obtain ⟨t, ht, hexp⟩ := hes e he
  obtain ⟨u, hu, hexp'⟩ := hes e' he'
  obtain rfl : t = u := by
    rw [hadd, hu] at ht
    exact (Option.some.inj ht).symm
  rw [← entry_eta e, ← entry_eta e', ← hexp, ← hexp', hadd]

/-- The whole of `reset`: a repeating timer of the batch is restarted and put back, any other
one of it is deleted, and nothing else is touched. -/
theorem resetEntries_spec {now : ℚ} {es : List Entry} (h : Sound q (es ++ out))
    (hq : q.resetEntries now es = some q') :
    Sound q' out ∧
      (∀ a, q'.heap a =
        if a ∈ es.map Entry.address then (q.heap a).bind (afterReset now) else q.heap a) ∧
      q'.numCreated = q.numCreated ∧ q'.log = q.log := by
  induction es generalizing q with
  | nil =>
    obtain rfl := Option.some.inj hq
    exact ⟨h, fun a => rfl, rfl, rfl⟩
  | cons e es ih =>
    have hnodup : ((e :: (es ++ out)).map Entry.address).Nodup := addresses_nodup h.out_nodup h.out_heap
    have hfirst : e.address ∉ es.map Entry.address := by
      rw [List.map_cons, List.nodup_cons, List.map_append, List.mem_append, not_or] at hnodup
      exact hnodup.1.1
    unfold TimerQueue.resetEntries at hq
    rw [List.foldlM_cons] at hq
    obtain ⟨q₁, h₁, h₂⟩ := Option.bind_eq_some_iff.mp hq
    obtain ⟨hheap₁, hcreated₁, hlog₁⟩ := resetEntry_fields h₁
    obtain ⟨hsound, hheap, hcreated, hlog⟩ := ih (resetEntry_sound h h₁) h₂
    refine ⟨hsound, fun a => ?_, hcreated.trans hcreated₁, hlog.trans hlog₁⟩
    rw [hheap, hheap₁, List.map_cons]
    by_cases ha : a = e.address
    · subst ha
      simp [hfirst]
    · have hmem : a ∈ e.address :: es.map Entry.address ↔ a ∈ es.map Entry.address := by
        rw [List.mem_cons, or_iff_right ha]
      simp only [hmem, Function.update_of_ne ha]

theorem endBatch_cases {clock : ℚ} (h : q.endBatch clock = some q') :
    ∃ b q₁, q.calling = some b ∧ b.remaining = [] ∧ q.resetEntries b.now b.expired = some q₁ ∧
      q'.heap = q₁.heap ∧ q'.timers = q₁.timers ∧ q'.activeTimers = q₁.activeTimers ∧
      q'.numCreated = q₁.numCreated ∧ q'.log = q₁.log ∧ q'.calling = none := by
  unfold TimerQueue.endBatch at h
  obtain ⟨b, hb, h⟩ := Option.bind_eq_some_iff.mp h
  obtain ⟨hrem, h⟩ := Option.ite_none_right_eq_some.mp h
  obtain ⟨q₁, h₁, h⟩ := Option.bind_eq_some_iff.mp h
  refine ⟨b, q₁, hb, hrem, h₁, ?_⟩
  simp only at h
  split at h
  · obtain rfl := Option.some.inj h
    exact ⟨rfl, rfl, rfl, rfl, rfl, rfl⟩
  · obtain ⟨t, -, rfl⟩ := Option.map_eq_some_iff.mp h
    exact ⟨rfl, rfl, rfl, rfl, rfl, rfl⟩

def outOf (q : TimerQueue) : List Entry := (q.calling.map Batch.expired).getD []

/-- The invariant of every reachable queue. -/
structure Good (q : TimerQueue) : Prop where
  sound : Sound q (outOf q)
  remaining : ∀ b, q.calling = some b → b.remaining <:+ b.expired

theorem Good.sound_batch (h : Good q) {b : Batch} (hb : q.calling = some b) : Sound q b.expired := by
  have hs := h.sound
  rwa [outOf, hb] at hs

theorem Good.sound_append (h : Good q) {b : Batch} (hb : q.calling = some b) :
    Sound q (b.expired ++ []) := by
  rw [List.append_nil]
  exact h.sound_batch hb

theorem initial_good : Good {} := by
  refine ⟨?_, by simp⟩
  constructor <;> simp [outOf]

theorem runNext_cases (h : q.runNext = some q') : ∃ b e rest t, q.calling = some b ∧
    b.remaining = e :: rest ∧ q.heap e.address = some t ∧ q' = { q with
      calling := some { b with remaining := rest }, log := q.log ++ [.started t.sequence b.now] } := by
  obtain ⟨b, hb, h⟩ := Option.bind_eq_some_iff.mp h
  cases hrem : b.remaining with
  | nil => simp [hrem] at h
  | cons e rest =>
    simp only [hrem] at h
    obtain ⟨t, ht, rfl⟩ := Option.map_eq_some_iff.mp h
    exact ⟨b, e, rest, t, hb, hrem, ht, rfl⟩

theorem addTimer_step {now delay interval : ℚ} {a : Address}
    (h : step q (.addTimer now delay interval a) = some q') :
    q.heap a = none ∧ a < uintptrMax ∧ q' = q.addTimer now delay interval a := by
  obtain ⟨⟨hfree, hlt⟩, rfl⟩ := guard_eq_some h
  exact ⟨hfree, hlt, rfl⟩

theorem step_good {l : Label} (h : Good q) (hstep : step q l = some q') : Good q' := by
  cases l with
  | addTimer now delay interval a =>
    obtain ⟨hfree, hlt, rfl⟩ := addTimer_step hstep
    obtain ⟨-, -, -, -, hcalling, -⟩ := addTimer_fields q now delay interval a
    refine ⟨?_, by rw [hcalling]; exact h.remaining⟩
    rw [outOf, hcalling]
    exact addTimer_sound h.sound now delay interval hfree hlt
  | createElsewhere =>
    obtain rfl := Option.some.inj hstep
    exact ⟨h.sound.congr rfl rfl rfl (Nat.le_succ _), h.remaining⟩
  | cancelTimer id =>
    obtain ⟨-, -, -, hcalling, -, -⟩ := cancelTimer_fields hstep
    refine ⟨?_, by rw [hcalling]; exact h.remaining⟩
    rw [outOf, hcalling]
    exact cancelTimer_sound h.sound hstep
  | beginBatch now =>
    obtain ⟨hnone, hcalling, -⟩ := beginBatch_fields hstep
    have hempty : outOf q = [] := by simp [outOf, hnone]
    refine ⟨?_, ?_⟩
    · have hsound := beginBatch_sound (hempty ▸ h.sound) hstep
      rw [List.append_nil] at hsound
      rwa [outOf, hcalling]
    · rw [hcalling]
      rintro b hb
      obtain rfl := Option.some.inj hb
      exact List.suffix_refl _
  | runNext =>
    obtain ⟨b, e, rest, t, hb, hrem, ht, rfl⟩ := runNext_cases hstep
    refine ⟨?_, ?_⟩
    · have hs := h.sound_batch hb
      exact { hs with }
    · rintro b' hb'
      obtain rfl := Option.some.inj hb'
      have hsuffix := h.remaining b hb
      rw [hrem] at hsuffix
      exact (List.suffix_cons e rest).trans hsuffix
  | endBatch clock =>
    obtain ⟨b, q₁, hb, -, hreset, hheap, htimers, hactive, hcreated, -, hcalling⟩ :=
      endBatch_cases hstep
    obtain ⟨hsound, -⟩ := resetEntries_spec (h.sound_append hb) hreset
    refine ⟨?_, by simp [hcalling]⟩
    rw [outOf, hcalling]
    exact hsound.congr hheap htimers hactive hcreated.ge

end TzzeroHttp.TimerInvariant
