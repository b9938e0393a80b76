import TzzeroHttp.TimerHistory

/-! How the event loop learns of the earliest expiration: the timer descriptor, which becomes
readable at a moment that `reset_timerfd` sets, and the time to sleep that `get_next_timeout`
returns. Both convert a time, which is a rational here, to an integer of fixed width. -/
namespace TzzeroHttp.TimerDeadline
open SortedSet TimerModel TimerInvariant TimerHistory Runs

def truncate (x : ℚ) : ℤ := x.num.tdiv x.den

/-- `static_cast` to a signed integer of the given width: undefined when the value does not fit. -/
def castInt (bits : ℕ) (x : ℚ) : Option ℤ :=
  let n := truncate x
  if -2 ^ (bits - 1) ≤ n ∧ n < 2 ^ (bits - 1) then some n else none

structure Itimerspec where
  tvSec : ℤ
  tvNsec : ℤ

/-- The kernel's side, with flags 0: `it_value` is a delay from now, zero disarms, and a field
out of range is an error that changes nothing. `readable` is the moment from which on the
descriptor is readable. -/
def timerfdSettime (clock : ℚ) (itValue : Itimerspec) (readable : Option ℚ) : Option ℚ :=
  if itValue.tvSec < 0 ∨ itValue.tvNsec < 0 ∨ 999999999 < itValue.tvNsec then readable
  else if itValue.tvSec = 0 ∧ itValue.tvNsec = 0 then none
  else some (clock + (itValue.tvSec + itValue.tvNsec / 1000000000))

/-- Hands the expiration over as the delay. Nothing is promised after an undefined conversion. -/
def resetTimerfd (arming : Arming) (readable : Option ℚ) : Option ℚ :=
  (castInt 64 (arming.expiration * 1000000)).bind fun microseconds =>
    timerfdSettime arming.setAt
      ⟨microseconds.tdiv 1000000, microseconds.tmod 1000000 * 1000⟩ readable

structure Timerfd where
  nested : Nested := {}
  readable : Option ℚ := none

inductive Call
  | queue (l : Label)
  | readTimerfd (clock : ℚ)

/-- `armed` says whether the step has called `reset_timerfd`. A read empties the descriptor if
it is readable. -/
def step (s : Timerfd) : Call → Option Timerfd
  | .queue l => ({ s.nested with queue.armed := none }.step l).map fun n =>
      ⟨n, n.queue.armed.elim s.readable fun arming => resetTimerfd arming s.readable⟩
  | .readTimerfd clock => some { s with readable := s.readable.filter (clock < ·) }

/-- The descriptor becomes readable no later than the earliest expiration. -/
def Timely (s : Timerfd) : Prop :=
  ∀ e ∈ s.nested.queue.timers.toList.head?, ∃ moment ∈ s.readable, moment ≤ e.when

/-- The step is the end of one of the three calls that change `timers_`. -/
def Returns : Call → Prop
  | .queue (.addTimer ..) | .queue (.cancelTimer _) | .queue (.endBatch _) => True
  | _ => False

def Adds : Call → Prop
  | .queue (.addTimer ..) => True
  | _ => False

/-- Milliseconds to sleep, and -1 for no limit. -/
def getNextTimeout (q : TimerQueue) (now : ℚ) : Option ℤ :=
  match q.timers.toList with
  | [] => some (-1)
  | e :: _ => if e.when ≤ now then some 0 else castInt 32 ((e.when - now) * 1000)

/-- -1 exactly without timers; otherwise a sleep that ends by the earliest expiration. -/
def WakesInTime (q : TimerQueue) (now : ℚ) : Prop :=
  (getNextTimeout q now = some (-1) ↔ q.timers.toList = []) ∧
  ∀ e ∈ q.timers.toList.head?, ∃ t, getNextTimeout q now = some t ∧ 0 ≤ t ∧ t < 2 ^ 31 ∧
    (t : ℚ) / 1000 ≤ max 0 (e.when - now)

theorem truncate_of_nonneg {x : ℚ} (h : 0 ≤ x) : truncate x = ⌊x⌋ := by
  rw [truncate, Int.tdiv_eq_ediv_of_nonneg (Rat.num_nonneg.mpr h), Rat.floor_def']

theorem truncate_nonpos {x : ℚ} (h : x ≤ 0) : truncate x ≤ 0 := by
  have hnum : 0 ≤ -x.num := by
    have := Rat.num_nonpos.mpr h
    omega
  have hdiv : 0 ≤ (-x.num).tdiv x.den := Int.tdiv_nonneg hnum (Int.natCast_nonneg _)
  rw [Int.neg_tdiv] at hdiv
  rw [truncate]
  omega

theorem castInt_eq_some {bits : ℕ} {x : ℚ} {n : ℤ} : castInt bits x = some n ↔
    (-2 ^ (bits - 1) ≤ truncate x ∧ truncate x < 2 ^ (bits - 1)) ∧ truncate x = n := by
  simp [castInt]

theorem castInt_of_nonneg {bits : ℕ} {x : ℚ} (h : 0 ≤ x) :
    castInt bits x = if x < 2 ^ (bits - 1) then some ⌊x⌋ else none := by
  have hfits : ⌊x⌋ < 2 ^ (bits - 1) ↔ x < 2 ^ (bits - 1) := by
    rw [Int.floor_lt]
    push_cast
    rfl
  have hneg : -2 ^ (bits - 1) ≤ ⌊x⌋ := by
    have hfloor : 0 ≤ ⌊x⌋ := Int.floor_nonneg.mpr h
    have hpow : (0 : ℤ) < 2 ^ (bits - 1) := by positivity
    omega
  simp only [castInt, truncate_of_nonneg h, hneg, hfits, true_and]

theorem getNextTimeout_cons {q : TimerQueue} {e : Entry} {es : List Entry}
    (hq : q.timers.toList = e :: es) (now : ℚ) : getNextTimeout q now =
      if e.when ≤ now then some 0 else
        if (e.when - now) * 1000 < 2 ^ 31 then some ⌊(e.when - now) * 1000⌋ else none := by
  unfold getNextTimeout
  rw [hq]
  simp only
  split_ifs with hpast hfits
  · rfl
  · rw [castInt_of_nonneg (by linarith), if_pos hfits]
  · rw [castInt_of_nonneg (by linarith), if_neg hfits]

/-- The loop wakes in time exactly when there is no timer, or the earliest one is less than
2^31 milliseconds away. -/
theorem wakes_in_time_iff (q : TimerQueue) (now : ℚ) :
    WakesInTime q now ↔ ∀ e ∈ q.timers.toList.head?, (e.when - now) * 1000 < 2 ^ 31 := by
  unfold WakesInTime
  cases hq : q.timers.toList with
  | nil => simp [getNextTimeout, hq]
  | cons e es =>
    simp only [List.head?_cons, Option.mem_def, Option.some.injEq, forall_eq', reduceCtorEq, iff_false]
    rw [getNextTimeout_cons hq]
    split_ifs with hpast hfits
    · have hsmall : (e.when - now) * 1000 < 2 ^ 31 := by linarith
      simp [hsmall]
    · have hleft : 0 ≤ (e.when - now) * 1000 := by linarith
      have hfloor : 0 ≤ ⌊(e.when - now) * 1000⌋ := Int.floor_nonneg.mpr hleft
      refine iff_of_true ⟨?_, _, rfl, hfloor, ?_, ?_⟩ hfits
      · rw [Option.some.injEq]
        omega
      · rw [Int.floor_lt]
        exact_mod_cast hfits
      · have hle := Int.floor_le ((e.when - now) * 1000)
        apply le_max_of_le_right
        linarith
    · simp [hfits]

/-- One timer, 2147484 seconds away. -/
theorem sleeps_past_long_delay :
    ∃ q, run TimerModel.step {} [.addTimer 10 2147484 0 16] = some q ∧
      q.timers.toList.map Entry.when = [2147494] ∧ getNextTimeout q 10 = none ∧ ¬ WakesInTime q 10 := by
  have hfacts : (run TimerModel.step {} [.addTimer 10 2147484 0 16]).map (fun q =>
      (q.timers.toList, getNextTimeout q 10)) = some ([entry 2147494 16], none) := by decide +kernel
  obtain ⟨q, hq, hfacts⟩ := Option.map_eq_some_iff.mp hfacts
  obtain ⟨htimers, hnone⟩ := Prod.mk.inj hfacts
  refine ⟨q, hq, by rw [htimers]; rfl, hnone, fun hwakes => ?_⟩
  obtain ⟨t, ht, -⟩ := hwakes.2 (entry 2147494 16) (by rw [htimers]; rfl)
  rw [hnone] at ht
  cases ht

structure Idle (n : Nested) : Prop where
  timers : n.queue.timers.toList = []
  batches : ∀ b ∈ n.batches, b.expired = [] ∧ b.remaining = []

theorem beginBatch_idle {q : TimerQueue} (htimers : q.timers.toList = []) (hidle : q.calling = none)
    (now : ℚ) : q.beginBatch now = some { q with
      timers := q.timers.notBelow (entry now uintptrMax), calling := some ⟨now, [], []⟩ } := by
  have hbelow : q.timers.below (entry now uintptrMax) = [] := by simp [OrderedSet.below, htimers]
  simp [TimerQueue.beginBatch, TimerQueue.getExpired, hbelow, hidle]

theorem endBatch_idle {q : TimerQueue} {b : Batch} (htimers : q.timers.toList = [])
    (hb : q.calling = some b) (hexpired : b.expired = []) (hrem : b.remaining = []) (clock : ℚ) :
    q.endBatch clock = some { q with calling := none } := by
  simp [TimerQueue.endBatch, TimerQueue.resetEntries, hb, hexpired, hrem, htimers]

theorem step_idle {n n' : Nested} {l : Label} (h : Idle n) (harmed : n.queue.armed = none)
    (hl : ¬ Adds (.queue l)) (hstep : n.step l = some n') : Idle n' ∧ n'.queue.armed = none := by
  cases l with
  | addTimer now delay interval a => exact absurd trivial hl
  | createElsewhere =>
    obtain rfl := Nested.create_cases hstep
    exact ⟨⟨h.timers, h.batches⟩, harmed⟩
  | cancelTimer id =>
    obtain ⟨q, hq, rfl⟩ := Nested.cancel_cases hstep
    obtain ⟨-, htimers, -, hcalling, hsame, -⟩ := cancelTimer_fields hq
    refine ⟨⟨?_, ?_⟩, hsame.trans harmed⟩
    · apply List.eq_nil_iff_forall_not_mem.mpr
      intro e he
      have hold : e ∈ n.queue.timers.toList := htimers e he
      rw [h.timers] at hold
      exact absurd hold List.not_mem_nil
    · rw [Nested.batches, hcalling]
      exact h.batches
  | beginBatch now =>
    have hbegin := beginBatch_idle (q := { n.queue with calling := none }) h.timers rfl now
    obtain ⟨-, hstep⟩ := Option.ite_none_right_eq_some.mp hstep
    rw [hbegin] at hstep
    obtain rfl := Option.some.inj hstep
    refine ⟨⟨?_, ?_⟩, harmed⟩
    · simp [OrderedSet.notBelow, h.timers]
    · intro b hb
      rcases List.mem_cons.mp hb with rfl | hb
      · exact ⟨rfl, rfl⟩
      · exact h.batches b hb
  | runNext =>
    obtain ⟨b, e, rest, t, hb, hrem, -⟩ := Nested.runNext_cases hstep
    have hnone := (h.batches b (by simp [hb])).2
    rw [hrem] at hnone
    cases hnone
  | endBatch clock =>
    obtain ⟨q, hq, rfl⟩ := Option.map_eq_some_iff.mp hstep
    obtain ⟨b, -, hcalling, -⟩ := endBatch_cases hq
    obtain ⟨hexpired, hrem⟩ := h.batches b (by simp [Nested.batches, hcalling])
    rw [endBatch_idle h.timers hcalling hexpired hrem] at hq
    obtain rfl := Option.some.inj hq
    refine ⟨⟨h.timers, fun c hc => h.batches c ?_⟩, harmed⟩
    have houter : c ∈ n.outer := by
      cases hn : n.outer with
      | nil => simp [Nested.batches, hn] at hc
      | cons o os => simpa [Nested.batches, hn] using hc
    simp [Nested.batches, houter]

theorem timerfdSettime_microseconds (clock : ℚ) (m : ℤ) (readable : Option ℚ) :
    timerfdSettime clock ⟨m.tdiv 1000000, m.tmod 1000000 * 1000⟩ readable =
      if m < 0 then readable else if m = 0 then none else some (clock + m / 1000000) := by
  unfold timerfdSettime
  simp only
  rcases lt_or_ge m 0 with hneg | hnonneg
  · have hquot : m.tdiv 1000000 = -(-m / 1000000) := by
      rw [← Int.tdiv_eq_ediv_of_nonneg (by omega), Int.neg_tdiv, neg_neg]
    have hrem : m.tmod 1000000 = -(-m % 1000000) := by
      rw [← Int.tmod_eq_emod_of_nonneg (by omega), Int.neg_tmod, neg_neg]
    rw [if_pos hneg, if_pos (by omega)]
  · have hquot : m.tdiv 1000000 = m / 1000000 := Int.tdiv_eq_ediv_of_nonneg hnonneg
    have hrem : m.tmod 1000000 = m % 1000000 := Int.tmod_eq_emod_of_nonneg hnonneg
    have hsplit : 1000000 * (m / 1000000) + m % 1000000 = m := Int.mul_ediv_add_emod m 1000000
    rw [hquot, hrem, if_neg (by omega), if_neg (not_lt.mpr hnonneg)]
    by_cases hzero : m = 0
    · rw [if_pos (by omega), if_pos hzero]
    · rw [if_neg (by omega), if_neg hzero]
      have hcast : (m : ℚ) = 1000000 * (m / 1000000 : ℤ) + (m % 1000000 : ℤ) := by exact_mod_cast hsplit.symm
      congr 2
      rw [hcast]
      push_cast
      ring

/-- Handing the expiration over as a delay makes the descriptor readable too late: by the
whole reading of the clock, up to the rounding of the expiration. -/
theorem resetTimerfd_late {clock expiration moment : ℚ} (hpos : 0 < clock)
    (hexact : ∃ n : ℤ, clock * 1000000 = n)
    (h : resetTimerfd ⟨clock, expiration⟩ none = some moment) : expiration < moment := by
  obtain ⟨m, hm, hset⟩ := Option.bind_eq_some_iff.mp h
  have htrunc : truncate (expiration * 1000000) = m := (castInt_eq_some.mp hm).2
  rw [timerfdSettime_microseconds] at hset
  split_ifs at hset with hneg hzero
  have hmoment : moment * 1000000 = clock * 1000000 + m := by
    rw [← Option.some.inj hset]
    ring
  have hexp : 0 ≤ expiration * 1000000 := by
    by_contra hlt
    have hle := truncate_nonpos (not_le.mp hlt).le
    omega
  have hfloor : expiration * 1000000 < m + 1 := by
    rw [← htrunc, truncate_of_nonneg hexp]
    exact Int.lt_floor_add_one _
  have hclock : 1 ≤ clock * 1000000 := by
    obtain ⟨n, hn⟩ := hexact
    rw [hn]
    have hn' : (0 : ℚ) < n := by linarith
    exact_mod_cast hn'
  linarith

/-- The first timer arms the descriptor. -/
theorem addTimer_first {q : TimerQueue} (h : q.timers.toList = []) (now delay interval : ℚ)
    (a : Address) : (q.addTimer now delay interval a).timers.toList = [entry (now + delay) a] ∧
      (q.addTimer now delay interval a).armed = some ⟨now, now + delay⟩ := by
  simp [TimerQueue.addTimer, TimerQueue.insert, TimerQueue.resetTimerfd, OrderedSet.insert,
    insertList, h]

theorem first_add_late {s s' : Timerfd} {now delay interval : ℚ} {a : Address}
    (h : Idle s.nested) (hreadable : s.readable = none) (hpos : 0 < now)
    (hexact : ∃ n : ℤ, now * 1000000 = n)
    (hstep : step s (.queue (.addTimer now delay interval a)) = some s') : ¬ Timely s' := by
  obtain ⟨n, hn, rfl⟩ := Option.map_eq_some_iff.mp hstep
  obtain ⟨-, -, rfl⟩ := Nested.add_cases hn
  obtain ⟨htimers, harmed⟩ := addTimer_first (q := { s.nested.queue with armed := none })
    h.timers now delay interval a
  intro htimely
  obtain ⟨moment, hmoment, hle⟩ := htimely (entry (now + delay) a) (by simp [htimers])
  simp only [harmed, Option.elim_some, hreadable] at hmoment
  exact absurd hle (not_le.mpr (resetTimerfd_late hpos hexact hmoment))

/-- Before the first timer nothing is armed. -/
def Quiet (s : Timerfd) : Prop := Idle s.nested ∧ s.readable = none

theorem step_quiet {s s' : Timerfd} {c : Call} (h : Quiet s) (hc : ¬ Adds c)
    (hstep : step s c = some s') : Quiet s' := by
  cases c with
  | queue l =>
    obtain ⟨n, hn, rfl⟩ := Option.map_eq_some_iff.mp hstep
    have hidle : Idle { s.nested with queue.armed := none } := ⟨h.1.timers, h.1.batches⟩
    obtain ⟨hidle', harmed⟩ := step_idle hidle rfl hc hn
    refine ⟨hidle', ?_⟩
    simp only [harmed, Option.elim_none]
    exact h.2
  | readTimerfd clock =>
    obtain rfl := Option.some.inj hstep
    refine ⟨h.1, ?_⟩
    simp [h.2]

/-- The descriptor becomes readable in time after every call of a run exactly when the run
adds no timer. The clock is positive, in whole microseconds. -/
theorem armed_in_time_iff (calls : List Call) (s : Timerfd) (hrun : run step {} calls = some s)
    (hclock : ∀ (now delay interval : ℚ) (a : Address),
      .queue (.addTimer now delay interval a) ∈ calls → 0 < now ∧ ∃ n : ℤ, now * 1000000 = n) :
    Guarded step (fun s c => Returns c → ∀ s' ∈ step s c, Timely s') {} calls ↔
      ∀ c ∈ calls, ¬ Adds c := by
  have hquiet : Quiet {} := ⟨⟨rfl, by simp [Nested.batches]⟩, rfl⟩
  generalize ({} : Timerfd) = s₀ at hrun hquiet
  induction calls generalizing s₀ with
  | nil => simp [Guarded]
  | cons c calls ih =>
    obtain ⟨s₁, h₁, h₂⟩ := run_cons.mp hrun
    rw [guarded_cons h₁, List.forall_mem_cons]
    have hrest : ¬ Adds c → (Guarded step (fun s c => Returns c → ∀ s' ∈ step s c, Timely s') s₁ calls ↔
        ∀ c ∈ calls, ¬ Adds c) := by
      intro hc
      apply ih _ s₁ h₂ (step_quiet hquiet hc h₁)
      intro now delay interval a hmem
      exact hclock now delay interval a (by simp [hmem])
    by_cases hc : Adds c
    · cases c with
      | queue l =>
        cases l with
        | addTimer now delay interval a =>
          obtain ⟨hpos, hexact⟩ := hclock now delay interval a (by simp)
          have hlate := first_add_late hquiet.1 hquiet.2 hpos hexact h₁
          exact iff_of_false (fun h => hlate (h.1 trivial s₁ h₁)) fun h => h.1 trivial
        | _ => exact hc.elim
      | readTimerfd clock => exact hc.elim
    · have htimely : Timely s₁ := by
        intro e he
        have hnone := (step_quiet hquiet hc h₁).1.timers
        rw [hnone] at he
        cases he
      rw [hrest hc]
      refine and_congr_left fun _ => iff_of_true (fun _ s' hs' => ?_) hc
      rwa [← Option.some.inj (h₁.symm.trans hs')]

/-- A batch without timers, and then a first timer, at a clock of 10 seconds. -/
theorem armed_in_time_iff_first :
    let calls : List Call := [.queue (.beginBatch 9), .queue (.endBatch 9), .queue (.addTimer 10 1 0 16)]
    (run step {} calls).isSome ∧
      ¬ Guarded step (fun s c => Returns c → ∀ s' ∈ step s c, Timely s') {} calls := by
  intro calls
  have hsome : (run step {} calls).isSome := by decide
  obtain ⟨s, hs⟩ := Option.isSome_iff_exists.mp hsome
  refine ⟨hsome, ?_⟩
  rw [armed_in_time_iff calls s hs]
  · intro h
    exact h (.queue (.addTimer 10 1 0 16)) (by simp [calls]) trivial
  · intro now delay interval a hmem
    obtain rfl : now = 10 := by simp_all [calls]
    exact ⟨by norm_num, 10000000, by norm_num⟩

/-- A timer for the time 11, added at the time 10: the descriptor becomes readable at 21. -/
theorem armed_late_first_timer :
    ∃ s, run step {} [.queue (.addTimer 10 1 0 16)] = some s ∧
      s.nested.queue.timers.toList.map Entry.when = [11] ∧ s.readable = some 21 ∧
      ¬ Guarded step (fun s c => Returns c → ∀ s' ∈ step s c, Timely s') {}
        [.queue (.addTimer 10 1 0 16)] := by
  have hfacts : (run step {} [.queue (.addTimer 10 1 0 16)]).map (fun s =>
      (s.nested.queue.timers.toList, s.readable)) = some ([entry 11 16], some 21) := by decide +kernel
  obtain ⟨s, hs, hfacts⟩ := Option.map_eq_some_iff.mp hfacts
  obtain ⟨htimers, hreadable⟩ := Prod.mk.inj hfacts
  obtain ⟨s', hstep, hs'⟩ := run_cons.mp hs
  obtain rfl := Option.some.inj hs'
  refine ⟨s', hs, by rw [htimers]; rfl, hreadable, fun h => ?_⟩
  obtain ⟨moment, hmoment, hle⟩ := h.1 trivial s' hstep (entry 11 16) (by rw [htimers]; rfl)
  rw [hreadable] at hmoment
  obtain rfl := Option.some.inj hmoment
  exact absurd hle (by decide)

end TzzeroHttp.TimerDeadline
