import TzzeroHttp.TimerDeadline

/-! How late the event loop starts its timers. A round lasts from the return of a wait to the
reading of the clock with which `get_next_timeout` plans the next wait. -/
namespace TzzeroHttp.TimerPunctual
open SortedSet TimerModel TimerInvariant TimerHistory TimerDeadline Runs

/-- A round with the moment since which it lasts, or a wait with the reading and the timeout
that it was planned with, which is none when the conversion was undefined. -/
inductive Phase
  | round (since : ℚ)
  | waiting (clock : ℚ) (timeout : Option ℤ)

structure Loop where
  nested : Nested := {}
  phase : Phase

/-- The two ends of a wait are `interrupted`, after which `loop` goes round again without
looking at the timers, and `woken`, with the reading that `process_expired_timers` makes. -/
inductive Action
  | timer (l : Label)
  | poll (clock : ℚ)
  | interrupted (moment : ℚ)
  | woken (now : ℚ)

def reading : Label → Option ℚ
  | .addTimer now _ _ _ | .beginBatch now | .endBatch now => some now
  | _ => none

/-- A wait has no end of its own if its timeout is negative, and need not have one if it is
undefined. -/
def Within (clock : ℚ) (timeout : Option ℤ) (moment : ℚ) : Prop :=
  ∀ t ∈ timeout, 0 ≤ t → moment ≤ clock + t / 1000

instance (clock : ℚ) (moment : ℚ) : ∀ timeout, Decidable (Within clock timeout moment)
  | none => .isTrue fun _ h => nomatch h
  | some t => decidable_of_iff (0 ≤ t → moment ≤ clock + t / 1000) (by simp [Within])

/-- One step of the loop, where a round takes at most `work` and the clock is read at most
`slack` after the time to wait is over. A wait that does not sleep cannot be interrupted. -/
def step (work slack : ℚ) (s : Loop) : Action → Option Loop
  | .timer l => match s.phase with
    | .waiting .. => none
    | .round since =>
      if ∀ r ∈ reading l, since ≤ r ∧ r ≤ since + work then
        (s.nested.step l).map fun n => { s with nested := n }
      else none
  | .poll clock => match s.phase with
    | .waiting .. => none
    | .round since =>
      if s.nested.batches = [] ∧ since ≤ clock ∧ clock ≤ since + work then
        some { s with phase := .waiting clock (getNextTimeout s.nested.queue clock) }
      else none
  | .interrupted moment => match s.phase with
    | .round _ => none
    | .waiting clock timeout =>
      if timeout ≠ some 0 ∧ clock ≤ moment ∧ Within clock timeout moment then
        some { s with phase := .round moment }
      else none
  | .woken now => match s.phase with
    | .round _ => none
    | .waiting clock timeout =>
      if clock ≤ now ∧ Within clock timeout (now - slack) then
        (s.nested.step (.beginBatch now)).map fun n => ⟨n, .round now⟩
      else none

/-- When the next start is due: at `first`, and from then on an interval after the last one. -/
def nextDue (first interval : ℚ) (runs : List ℚ) : ℚ := runs.getLast?.elim first (· + interval)

def InTime (work due : ℚ) : Phase → Prop
  | .round since => since ≤ due
  | .waiting clock timeout => ∃ t : ℤ, timeout = some t ∧ 0 ≤ t ∧
    clock + t / 1000 ≤ due + work ∧ (t ≠ 0 → clock + t / 1000 ≤ due)

/-- The batches in progress belong to the current round. -/
def Current (s : Loop) : Prop :=
  match s.phase with
  | .round since => ∀ b ∈ s.nested.batches, since ≤ b.now
  | .waiting .. => s.nested.batches = []

/-- What holds of a timer that was added for the time `first`: no start of it comes later
than `work + slack` after it was due, and neither will the next one. -/
structure Prompt (work slack : ℚ) (s : Loop) (id : ℕ) (first interval : ℚ) : Prop where
  head : ∀ n ∈ (startsOf id s.nested.queue.log).head?, n ≤ first + (work + slack)
  gaps : (startsOf id s.nested.queue.log).IsChain fun m n => n ≤ m + interval + (work + slack)
  expiration : ∀ a t, s.nested.queue.heap a = some t → t.sequence = id → Unstarted s.nested a →
    t.expiration ≤ nextDue first interval (startsOf id s.nested.queue.log)
  pending : ∀ a t, s.nested.queue.heap a = some t → t.sequence = id →
    (∀ b ∈ s.nested.batches, a ∉ b.expired.map Entry.address) →
    InTime work (nextDue first interval (startsOf id s.nested.queue.log)) s.phase
  taken : ∀ a t, s.nested.queue.heap a = some t → t.sequence = id → ∀ b ∈ s.nested.batches,
    a ∈ b.remaining.map Entry.address →
    b.now ≤ nextDue first interval (startsOf id s.nested.queue.log) + (work + slack)
  ran : ∀ a t, s.nested.queue.heap a = some t → t.sequence = id → ∀ b ∈ s.nested.batches,
    a ∈ b.expired.map Entry.address → a ∉ b.remaining.map Entry.address →
    (startsOf id s.nested.queue.log).getLast? = some b.now

variable {work slack first₀ first interval : ℚ} {s s' : Loop} {id : ℕ}

theorem timer_cases {l : Label} (h : step work slack s (.timer l) = some s') :
    ∃ since n, s.phase = .round since ∧ (∀ r ∈ reading l, since ≤ r ∧ r ≤ since + work) ∧
      s.nested.step l = some n ∧ s' = { s with nested := n } := by
  cases hphase : s.phase with
  | waiting clock timeout => simp [step, hphase] at h
  | round since =>
    simp only [step, hphase] at h
    obtain ⟨hreading, h⟩ := Option.ite_none_right_eq_some.mp h
    obtain ⟨n, hn, rfl⟩ := Option.map_eq_some_iff.mp h
    exact ⟨since, n, rfl, hreading, hn, by rw [← hphase]⟩

theorem poll_cases {clock : ℚ} (h : step work slack s (.poll clock) = some s') :
    ∃ since, s.phase = .round since ∧ s.nested.batches = [] ∧ since ≤ clock ∧ clock ≤ since + work ∧
      s' = { s with phase := .waiting clock (getNextTimeout s.nested.queue clock) } := by
  cases hphase : s.phase with
  | waiting clock timeout => simp [step, hphase] at h
  | round since =>
    simp only [step, hphase] at h
    obtain ⟨⟨hbatches, hclock, hwork⟩, rfl⟩ := guard_eq_some h
    exact ⟨since, rfl, hbatches, hclock, hwork, rfl⟩

theorem interrupted_cases {moment : ℚ} (h : step work slack s (.interrupted moment) = some s') :
    ∃ clock timeout, s.phase = .waiting clock timeout ∧ timeout ≠ some 0 ∧ Within clock timeout moment ∧
      s' = { s with phase := .round moment } := by
  cases hphase : s.phase with
  | round since => simp [step, hphase] at h
  | waiting clock timeout =>
    simp only [step, hphase] at h
    obtain ⟨⟨htimeout, -, hwithin⟩, rfl⟩ := guard_eq_some h
    exact ⟨clock, timeout, rfl, htimeout, hwithin, rfl⟩

theorem woken_cases {now : ℚ} (h : step work slack s (.woken now) = some s') :
    ∃ clock timeout n, s.phase = .waiting clock timeout ∧ Within clock timeout (now - slack) ∧
      s.nested.step (.beginBatch now) = some n ∧ s' = ⟨n, .round now⟩ := by
  cases hphase : s.phase with
  | round since => simp [step, hphase] at h
  | waiting clock timeout =>
    simp only [step, hphase] at h
    obtain ⟨⟨-, hwithin⟩, h⟩ := Option.ite_none_right_eq_some.mp h
    obtain ⟨n, hn, rfl⟩ := Option.map_eq_some_iff.mp h
    exact ⟨clock, timeout, n, rfl, hwithin, hn, rfl⟩

theorem Prompt.keep (h : Prompt work slack s id first interval) {n : Nested}
    (hbatches : n.batches = s.nested.batches)
    (hlog : startsOf id n.queue.log = startsOf id s.nested.queue.log)
    (hheap : ∀ a t, n.queue.heap a = some t → t.sequence = id → s.nested.queue.heap a = some t) :
    Prompt work slack { s with nested := n } id first interval := by
  constructor
  · rw [hlog]
    exact h.head
  · rw [hlog]
    exact h.gaps
  · intro a t ht hseq hun
    rw [Unstarted, hbatches] at hun
    rw [hlog]
    exact h.expiration a t (hheap a t ht hseq) hseq hun
  · intro a t ht hseq hout
    rw [hbatches] at hout
    rw [hlog]
    exact h.pending a t (hheap a t ht hseq) hseq hout
  · intro a t ht hseq
    rw [hbatches, hlog]
    exact h.taken a t (hheap a t ht hseq) hseq
  · intro a t ht hseq
    rw [hbatches, hlog]
    exact h.ran a t (hheap a t ht hseq) hseq

/-- A batch begins: what is due is taken out in time, and what stays behind is due later. -/
theorem beginBatch_prompt (hs : Sane s.nested) (h : Prompt work slack s id first interval) {now : ℚ}
    {n : Nested} {phase : Phase} (hstep : s.nested.step (.beginBatch now) = some n)
    (hgo : ∀ due, InTime work due s.phase → now ≤ due + (work + slack))
    (hstay : ∀ due, InTime work due s.phase → now < due → InTime work due phase) :
    Prompt work slack ⟨n, phase⟩ id first interval := by
  obtain ⟨hbatches, hheap, -, hlog, -⟩ := Nested.begin_cases hstep
  constructor
  · rw [hlog]
    exact h.head
  · rw [hlog]
    exact h.gaps
  · intro a t ht hseq hun
    rw [hheap] at ht
    rw [Unstarted, hbatches, List.forall_mem_cons] at hun
    rw [hlog]
    exact h.expiration a t ht hseq hun.2
  · intro a t ht hseq hout
    rw [hheap] at ht
    rw [hbatches, List.forall_mem_cons] at hout
    obtain ⟨hbelow, hout⟩ := hout
    rw [hlog]
    refine hstay _ (h.pending a t ht hseq hout) ?_
    have hexp := h.expiration a t ht hseq fun b hb hin => absurd hin (hout b hb)
    -- It is in the set and behind the sentinel.
    have hmem : entry t.expiration a ∈ s.nested.queue.timers := by
      rcases hs.sound.live a t ht with hin | hin
      · exact hin
      · obtain ⟨b, hb, he⟩ := List.mem_flatMap.mp hin
        exact absurd (List.mem_map_of_mem he) (hout b hb)
    have hnot : ¬ entry t.expiration a < entry now uintptrMax :=
      fun hlt => hbelow (List.mem_map_of_mem (OrderedSet.mem_below.mpr ⟨hmem, hlt⟩))
    have hlex : now < t.expiration ∨ now = t.expiration ∧ uintptrMax ≤ a :=
      Prod.Lex.le_iff.mp (not_lt.mp hnot)
    rcases hlex with hlt | ⟨-, hle⟩
    · exact hlt.trans_le hexp
    · exact absurd (hs.sound.address_lt a t ht) (not_lt.mpr hle)
  · intro a t ht hseq
    rw [hheap] at ht
    rw [hbatches, hlog, List.forall_mem_cons]
    refine ⟨fun hin => hgo _ (h.pending a t ht hseq fun b hb hout => ?_), h.taken a t ht hseq⟩
    obtain ⟨-, hapart⟩ := (step_sane hs hstep).apart hbatches
    exact hapart a hin b hb hout
  · intro a t ht hseq
    rw [hheap] at ht
    rw [hbatches, hlog, List.forall_mem_cons]
    exact ⟨fun hin hnot => absurd hin hnot, h.ran a t ht hseq⟩

theorem starts_stay_close {late now : ℚ} {runs : List ℚ} (hhead : ∀ n ∈ runs.head?, n ≤ first + late)
    (hgaps : runs.IsChain fun m n => n ≤ m + interval + late)
    (hnow : now ≤ nextDue first interval runs + late) :
    (∀ n ∈ (runs ++ [now]).head?, n ≤ first + late) ∧
      (runs ++ [now]).IsChain fun m n => n ≤ m + interval + late := by
  constructor
  · cases runs with
    | nil => simpa [nextDue] using hnow
    | cons m ms => simpa using hhead
  · rw [List.isChain_append]
    refine ⟨hgaps, List.isChain_singleton _, fun m hm n hn => ?_⟩
    rw [List.head?_singleton, Option.mem_some_iff] at hn
    obtain rfl := hn
    rw [nextDue, Option.mem_def.mp hm] at hnow
    exact hnow

theorem runNext_prompt_other (h : Prompt work slack s id first interval) {n : Nested} {b : Batch}
    {e : Entry} {rest : List Entry} {bs : List Batch} {t : Timer}
    (hb : s.nested.batches = b :: bs) (hrem : b.remaining = e :: rest)
    (ht : s.nested.queue.heap e.address = some t) (hseq : t.sequence ≠ id)
    (hbatches : n.batches = { b with remaining := rest } :: bs)
    (hheap : n.queue.heap = s.nested.queue.heap)
    (hlog : n.queue.log = s.nested.queue.log ++ [.started t.sequence b.now]) :
    Prompt work slack { s with nested := n } id first interval := by
  have hruns : startsOf id n.queue.log = startsOf id s.nested.queue.log := by
    rw [hlog, startsOf_other hseq]
  constructor
  · rw [hruns]
    exact h.head
  · rw [hruns]
    exact h.gaps
  · intro a u hu huseq hun
    rw [hheap] at hu
    rw [Unstarted, hbatches, List.forall_mem_cons] at hun
    rw [hruns]
    refine h.expiration a u hu huseq ?_
    rw [Unstarted, hb, List.forall_mem_cons, mem_remaining_other hrem ht hseq hu huseq]
    exact hun
  · intro a u hu huseq hout
    rw [hheap] at hu
    rw [hbatches, List.forall_mem_cons] at hout
    rw [hruns]
    refine h.pending a u hu huseq ?_
    rw [hb, List.forall_mem_cons]
    exact hout
  · intro a u hu huseq
    rw [hheap] at hu
    have hold := h.taken a u hu huseq
    rw [hb, List.forall_mem_cons, mem_remaining_other hrem ht hseq hu huseq] at hold
    rw [hbatches, hruns, List.forall_mem_cons]
    exact hold
  · intro a u hu huseq
    rw [hheap] at hu
    have hold := h.ran a u hu huseq
    rw [hb, List.forall_mem_cons, mem_remaining_other hrem ht hseq hu huseq] at hold
    rw [hbatches, hruns, List.forall_mem_cons]
    exact hold

theorem runNext_prompt_self (hs : Sane s.nested) (h : Prompt work slack s id first interval)
    {n : Nested} {b : Batch} {e : Entry} {rest : List Entry} {bs : List Batch} {t : Timer}
    (hb : s.nested.batches = b :: bs) (hrem : b.remaining = e :: rest)
    (ht : s.nested.queue.heap e.address = some t) (hseq : t.sequence = id)
    (hbatches : n.batches = { b with remaining := rest } :: bs)
    (hheap : n.queue.heap = s.nested.queue.heap)
    (hlog : n.queue.log = s.nested.queue.log ++ [.started t.sequence b.now]) :
    Prompt work slack { s with nested := n } id first interval := by
  have hbmem : b ∈ s.nested.batches := by simp [hb]
  obtain ⟨hin, hgone, hapart⟩ := hs.next hb hrem
  have honly : ∀ a u, n.queue.heap a = some u → u.sequence = id → a = e.address := by
    intro a u hu huseq
    rw [hheap] at hu
    exact hs.sound.sequence_inj a e.address u t hu ht (huseq.trans hseq.symm)
  have hruns : startsOf id n.queue.log = startsOf id s.nested.queue.log ++ [b.now] := by
    rw [hlog, startsOf_self hseq]
  have hnow := h.taken e.address t ht hseq b hbmem (by simp [hrem])
  obtain ⟨hhead, hgaps⟩ := starts_stay_close h.head h.gaps hnow
  rw [← hruns] at hhead hgaps
  refine ⟨hhead, hgaps, ?_, ?_, ?_, ?_⟩
  · intro a u hu huseq hun
    obtain rfl := honly a u hu huseq
    rw [Unstarted, hbatches, List.forall_mem_cons] at hun
    exact absurd (hun.1 hin) hgone
  · intro a u hu huseq hout
    obtain rfl := honly a u hu huseq
    rw [hbatches, List.forall_mem_cons] at hout
    exact absurd hin hout.1
  · intro a u hu huseq
    obtain rfl := honly a u hu huseq
    rw [hbatches, List.forall_mem_cons]
    refine ⟨fun hrest => absurd hrest hgone, fun c hc hrest => ?_⟩
    have hcin := ((hs.remaining c (by simp [hb, hc])).map Entry.address).subset hrest
    exact absurd hcin (hapart c hc)
  · intro a u hu huseq
    obtain rfl := honly a u hu huseq
    rw [hbatches, hruns, List.forall_mem_cons, List.getLast?_concat]
    exact ⟨fun _ _ => rfl, fun c hc hc' => absurd hc' (hapart c hc)⟩

/-- The end of a batch: a timer that it restarts is due an interval after its last start. -/
theorem endBatch_prompt (hs : Sane s.nested) (htimed : Timed s.nested id first₀ interval)
    (h : Prompt work slack s id first interval) {since clock : ℚ} {n : Nested}
    (hphase : s.phase = .round since) (hsince : ∀ b ∈ s.nested.batches, since ≤ b.now)
    (hstep : s.nested.step (.endBatch clock) = some n) :
    Prompt work slack { s with nested := n } id first interval := by
  obtain ⟨b, hb, hrem, hend⟩ := Nested.end_cases hstep
  have hbmem : b ∈ s.nested.batches := by simp [hb]
  have hsound := hs.sound
  rw [Nested.out, hb, List.flatMap_cons] at hsound
  obtain ⟨-, hheap, -, hlog⟩ := hend _ hsound
  obtain ⟨-, hapart⟩ := hs.apart hb
  -- What a restart makes of the next start.
  have hrestart : ∀ a t, s.nested.queue.heap a = some t → t.sequence = id → t.repeats = true →
      a ∈ b.expired.map Entry.address →
      nextDue first interval (startsOf id n.queue.log) = b.now + t.interval ∧ 0 < t.interval := by
    intro a t ht hseq hrep hin
    have hlast := h.ran a t ht hseq b hbmem hin (by simp [hrem])
    rw [← hlog] at hlast
    rw [nextDue, hlast, (htimed.timer a t ht hseq).1]
    exact ⟨rfl, by simpa [Timer.repeats, (htimed.timer a t ht hseq).1] using hrep⟩
  constructor
  · rw [hlog]
    exact h.head
  · rw [hlog]
    exact h.gaps
  · intro a u hu hseq hun
    rw [hheap] at hu
    rcases reset_eq_some hu with ⟨hnot, ht⟩ | ⟨hin, t, ht, hrep, rfl⟩
    · rw [hlog]
      refine h.expiration a u ht hseq ?_
      rw [Unstarted, hb, List.forall_mem_cons]
      exact ⟨fun hin => absurd hin hnot, hun⟩
    · exact (hrestart a t ht hseq hrep hin).1.ge
  · intro a u hu hseq hout
    rw [hheap] at hu
    rcases reset_eq_some hu with ⟨hnot, ht⟩ | ⟨hin, t, ht, hrep, rfl⟩
    · rw [hlog]
      refine h.pending a u ht hseq ?_
      rw [hb, List.forall_mem_cons]
      exact ⟨hnot, hout⟩
    · obtain ⟨hdue, hpos⟩ := hrestart a t ht hseq hrep hin
      have hbnow := hsince b hbmem
      rw [hdue, hphase, InTime]
      linarith
  · intro a u hu hseq c hc hcrem
    rw [hheap] at hu
    have hcin := ((hs.remaining c (by simp [hb, hc])).map Entry.address).subset hcrem
    rcases reset_eq_some hu with ⟨-, ht⟩ | ⟨hin, -⟩
    · rw [hlog]
      exact h.taken a u ht hseq c (by simp [hb, hc]) hcrem
    · exact absurd hcin (hapart a hin c hc)
  · intro a u hu hseq c hc hcin hnot
    rw [hheap] at hu
    rcases reset_eq_some hu with ⟨-, ht⟩ | ⟨hin, -⟩
    · rw [hlog]
      exact h.ran a u ht hseq c (by simp [hb, hc]) hcin hnot
    · exact absurd hcin (hapart a hin c hc)

theorem timer_prompt (hslack : 0 ≤ slack) (hs : Sane s.nested) (hcurrent : Current s)
    (htimed : Timed s.nested id first₀ interval) (h : Prompt work slack s id first interval) {l : Label}
    (hstep : step work slack s (.timer l) = some s') : Prompt work slack s' id first interval := by
  obtain ⟨since, n, hphase, hreading, hn, rfl⟩ := timer_cases hstep
  rw [Current, hphase] at hcurrent
  cases l with
  | addTimer now delay interval' a =>
    obtain ⟨-, -, rfl⟩ := Nested.add_cases hn
    obtain ⟨hheap, -, -, -, hcalling, hlog⟩ := addTimer_fields s.nested.queue now delay interval' a
    refine h.keep ?_ ?_ fun b t ht hseq => ?_
    · rw [Nested.batches, Nested.batches, hcalling]
    · rw [hlog, startsOf_append]
      exact List.append_nil _
    · rw [hheap, update_eq_some] at ht
      rcases ht with ⟨-, hself⟩ | ⟨-, ht⟩
      · have hnew : t.sequence = s.nested.queue.numCreated + 1 := by rw [← Option.some.inj hself]
        have hold := htimed.created
        omega
      · exact ht
  | createElsewhere =>
    obtain rfl := Nested.create_cases hn
    exact h.keep rfl rfl fun a t ht _ => ht
  | cancelTimer other =>
    obtain ⟨q, hq, rfl⟩ := Nested.cancel_cases hn
    obtain ⟨hheap, -, -, hcalling, -, hlog⟩ := cancelTimer_fields hq
    refine h.keep ?_ ?_ fun b u hu _ => hheap b u hu
    · rw [Nested.batches, Nested.batches, hcalling]
    · rw [hlog, startsOf_append]
      exact List.append_nil _
  | beginBatch now =>
    obtain ⟨-, hwork⟩ := hreading now rfl
    refine beginBatch_prompt hs h hn (fun due hdue => ?_) fun due hdue _ => hdue
    rw [hphase, InTime] at hdue
    linarith
  | runNext =>
    obtain ⟨b, e, rest, t, hb, hrem, ht, hbatches, hheap, -, -, -, hlog⟩ := Nested.runNext_cases hn
    by_cases hseq : t.sequence = id
    · exact runNext_prompt_self hs h hb hrem ht hseq hbatches hheap hlog
    · exact runNext_prompt_other h hb hrem ht hseq hbatches hheap hlog
  | endBatch clock => exact endBatch_prompt hs htimed h hphase hcurrent hn

/-- The next timer is less than 2^31 milliseconds away when a wait is planned. -/
def Near (s : Loop) : Action → Prop
  | .poll clock => ∀ e ∈ s.nested.queue.timers.toList.head?, (e.when - clock) * 1000 < 2 ^ 31
  | _ => True

instance (s : Loop) : ∀ a, Decidable (Near s a)
  | .poll _ => inferInstanceAs (Decidable (∀ e ∈ s.nested.queue.timers.toList.head?, _))
  | .timer _ | .interrupted _ | .woken _ => .isTrue trivial

/-- The next wait is planned by the earliest timer, so it is over before any other is due. -/
theorem planned {since clock due : ℚ} {e : Entry} (he : e ∈ s.nested.queue.timers)
    (hnear : Near s (.poll clock)) (hdue : e.when ≤ due) (hsince : since ≤ due) (hclock : since ≤ clock)
    (hwork : clock ≤ since + work) :
    InTime work due (.waiting clock (getNextTimeout s.nested.queue clock)) := by
  obtain ⟨d, ds, htimers⟩ := List.exists_cons_of_ne_nil (List.ne_nil_of_mem he)
  have hfirst : d ≤ e := by
    have hsorted := s.nested.queue.timers.sorted
    have hmem : e ∈ s.nested.queue.timers.toList := he
    rw [htimers] at hsorted hmem
    rcases List.mem_cons.mp hmem with rfl | hmem
    · exact le_rfl
    · exact ((List.pairwise_cons.mp hsorted).1 e hmem).le
  have hearliest : d.when ≤ e.when := (Prod.Lex.le_iff.mp hfirst).elim le_of_lt fun heq => heq.1.le
  have hfits : (d.when - clock) * 1000 < 2 ^ 31 := hnear d (by simp [htimers])
  rw [getNextTimeout_cons htimers, if_pos hfits]
  split_ifs with hpast
  · refine ⟨0, rfl, le_rfl, ?_, fun h => absurd rfl h⟩
    push_cast
    linarith
  · have hle := Int.floor_le ((d.when - clock) * 1000)
    have hend : clock + (⌊(d.when - clock) * 1000⌋ : ℚ) / 1000 ≤ due := by linarith
    exact ⟨_, rfl, Int.floor_nonneg.mpr (by linarith), by linarith, fun _ => hend⟩

theorem poll_prompt (hs : Sane s.nested) (h : Prompt work slack s id first interval) {clock : ℚ}
    (hnear : Near s (.poll clock)) (hstep : step work slack s (.poll clock) = some s') :
    Prompt work slack s' id first interval := by
  obtain ⟨since, hphase, hbatches, hclock, hwork, rfl⟩ := poll_cases hstep
  refine ⟨h.head, h.gaps, h.expiration, fun a u hu hseq hout => ?_, h.taken, h.ran⟩
  have hsince := h.pending a u hu hseq hout
  rw [hphase] at hsince
  have hexp := h.expiration a u hu hseq (by simp [Unstarted, hbatches])
  have hmem : entry u.expiration a ∈ s.nested.queue.timers := by
    rcases hs.sound.live a u hu with hin | hin
    · exact hin
    · simp [Nested.out, hbatches] at hin
  exact planned hmem hnear hexp hsince hclock hwork

theorem interrupted_prompt (h : Prompt work slack s id first interval) {moment : ℚ}
    (hstep : step work slack s (.interrupted moment) = some s') :
    Prompt work slack s' id first interval := by
  obtain ⟨clock, timeout, hphase, htimeout, hwithin, rfl⟩ := interrupted_cases hstep
  refine ⟨h.head, h.gaps, h.expiration, fun a u hu hseq hout => ?_, h.taken, h.ran⟩
  have hwaits := h.pending a u hu hseq hout
  rw [hphase] at hwaits
  obtain ⟨t, rfl, hpos, -, hend⟩ := hwaits
  exact (hwithin t rfl hpos).trans (hend fun hzero => htimeout (congrArg some hzero))

theorem woken_prompt (hs : Sane s.nested) (h : Prompt work slack s id first interval) {now : ℚ}
    (hstep : step work slack s (.woken now) = some s') : Prompt work slack s' id first interval := by
  obtain ⟨clock, timeout, n, hphase, hwithin, hn, rfl⟩ := woken_cases hstep
  refine beginBatch_prompt hs h hn (fun due hwaits => ?_) fun due _ hlt => hlt.le
  rw [hphase] at hwaits
  obtain ⟨t, rfl, hpos, hend, -⟩ := hwaits
  have hnow := hwithin t rfl hpos
  linarith

theorem step_prompt (hslack : 0 ≤ slack) (hs : Sane s.nested) (hcurrent : Current s)
    (htimed : Timed s.nested id first₀ interval) (h : Prompt work slack s id first interval) {a : Action}
    (hnear : Near s a) (hstep : step work slack s a = some s') :
    Prompt work slack s' id first interval := by
  cases a with
  | timer l => exact timer_prompt hslack hs hcurrent htimed h hstep
  | poll clock => exact poll_prompt hs h hnear hstep
  | interrupted moment => exact interrupted_prompt h hstep
  | woken now => exact woken_prompt hs h hstep

theorem step_nested {a : Action} (h : step work slack s a = some s') :
    s'.nested = s.nested ∨ ∃ l, s.nested.step l = some s'.nested := by
  cases a with
  | timer l =>
    obtain ⟨-, n, -, -, hn, rfl⟩ := timer_cases h
    exact .inr ⟨l, hn⟩
  | poll clock =>
    obtain ⟨-, -, -, -, -, rfl⟩ := poll_cases h
    exact .inl rfl
  | interrupted moment =>
    obtain ⟨-, -, -, -, -, rfl⟩ := interrupted_cases h
    exact .inl rfl
  | woken now =>
    obtain ⟨-, -, n, -, -, hn, rfl⟩ := woken_cases h
    exact .inr ⟨_, hn⟩

theorem step_current {a : Action} (h : Current s) (hstep : step work slack s a = some s') :
    Current s' := by
  cases a with
  | timer l =>
    obtain ⟨since, n, hphase, hreading, hn, rfl⟩ := timer_cases hstep
    have hold : ∀ b ∈ s.nested.batches, since ≤ b.now := by simpa [Current, hphase] using h
    simp only [Current, hphase]
    cases l with
    | addTimer now delay interval' a =>
      obtain ⟨-, -, rfl⟩ := Nested.add_cases hn
      obtain ⟨-, -, -, -, hcalling, -⟩ := addTimer_fields s.nested.queue now delay interval' a
      rw [Nested.batches, hcalling]
      exact hold
    | createElsewhere =>
      obtain rfl := Nested.create_cases hn
      exact hold
    | cancelTimer other =>
      obtain ⟨q, hq, rfl⟩ := Nested.cancel_cases hn
      obtain ⟨-, -, -, hcalling, -⟩ := cancelTimer_fields hq
      rw [Nested.batches, hcalling]
      exact hold
    | beginBatch now =>
      obtain ⟨hbatches, -⟩ := Nested.begin_cases hn
      rw [hbatches, List.forall_mem_cons]
      exact ⟨(hreading now rfl).1, hold⟩
    | runNext =>
      obtain ⟨b, e, rest, t, hb, -, -, hbatches, -⟩ := Nested.runNext_cases hn
      rw [hb, List.forall_mem_cons] at hold
      rw [hbatches, List.forall_mem_cons]
      exact hold
    | endBatch clock =>
      obtain ⟨b, hb, -⟩ := Nested.end_cases hn
      rw [hb, List.forall_mem_cons] at hold
      exact hold.2
  | poll clock =>
    obtain ⟨since, hphase, hbatches, -, -, rfl⟩ := poll_cases hstep
    exact hbatches
  | interrupted moment =>
    obtain ⟨clock, timeout, hphase, -, -, rfl⟩ := interrupted_cases hstep
    rw [Current, hphase] at h
    simp [Current, h]
  | woken now =>
    obtain ⟨clock, timeout, n, hphase, -, hn, rfl⟩ := woken_cases hstep
    obtain ⟨hbatches, -⟩ := Nested.begin_cases hn
    rw [Current, hphase] at h
    simp [Current, hbatches, h]

/-- The invariant of every state that the loop reaches. -/
theorem step_good {a : Action} (h : Sane s.nested ∧ Known s.nested ∧ Current s)
    (hstep : step work slack s a = some s') : Sane s'.nested ∧ Known s'.nested ∧ Current s' := by
  obtain ⟨hs, hknown, hcurrent⟩ := h
  have hnext := step_current hcurrent hstep
  rcases step_nested hstep with hsame | ⟨l, hn⟩
  · rw [hsame]
    exact ⟨hs, hknown, hnext⟩
  · exact ⟨step_sane hs hn, step_known hs hknown hn, hnext⟩

theorem step_still_timed {a : Action} (hs : Sane s.nested) (h : Timed s.nested id first₀ interval)
    (hstep : step work slack s a = some s') : Timed s'.nested id first₀ interval := by
  rcases step_nested hstep with hsame | ⟨l, hn⟩
  · rw [hsame]
    exact h
  · exact step_timed hs h hn

theorem startsOf_fresh {n : Nested} (h : Known n) :
    startsOf (n.queue.numCreated + 1) n.queue.log = [] := by
  rw [startsOf, List.filter_eq_nil_iff.mpr, List.map_nil]
  intro p hp
  have hle := h p hp
  simp only [decide_eq_true_eq]
  omega

/-- A timer that has just been added is due after the round began, and in no batch. -/
theorem added_prompt (hs : Sane s.nested) (hknown : Known s.nested) {clock delay : ℚ} {a : Address}
    (hstep : step work slack s (.timer (.addTimer clock delay interval a)) = some s') :
    Prompt work slack s' (s.nested.queue.numCreated + 1) (max clock (clock + delay)) interval := by
  obtain ⟨since, n, hphase, hreading, hn, rfl⟩ := timer_cases hstep
  obtain ⟨hsince, -⟩ := hreading clock rfl
  obtain ⟨hfree, -, rfl⟩ := Nested.add_cases hn
  obtain ⟨hheap, -, -, -, hcalling, hlog⟩ := addTimer_fields s.nested.queue clock delay interval a
  have hbatches : ({ s.nested with queue := s.nested.queue.addTimer clock delay interval a } : Nested).batches =
      s.nested.batches := by
    rw [Nested.batches, Nested.batches, hcalling]
  have hruns : startsOf (s.nested.queue.numCreated + 1)
      (s.nested.queue.addTimer clock delay interval a).log = [] := by
    rw [hlog, startsOf_append, startsOf_fresh hknown]
    rfl
  have honly : ∀ b t, (s.nested.queue.addTimer clock delay interval a).heap b = some t →
      t.sequence = s.nested.queue.numCreated + 1 → b = a ∧ t.expiration = clock + delay := by
    intro b t ht hseq
    rw [hheap, update_eq_some] at ht
    rcases ht with ⟨hba, hself⟩ | ⟨-, ht⟩
    · exact ⟨hba, by rw [← Option.some.inj hself]⟩
    · have hle := hs.sound.sequence_le b t ht
      omega
  have hout : ∀ b ∈ s.nested.batches, a ∉ b.expired.map Entry.address := by
    intro b hb hin
    obtain ⟨e, he, rfl⟩ := List.mem_map.mp hin
    obtain ⟨t, ht, -⟩ := hs.sound.out_heap e (List.mem_flatMap.mpr ⟨b, hb, he⟩)
    rw [hfree] at ht
    cases ht
  constructor
  · simp [hruns]
  · simp [hruns]
  · intro b t ht hseq _
    rw [hruns, (honly b t ht hseq).2]
    exact le_max_right _ _
  · intro b t ht hseq _
    rw [hruns, hphase]
    exact hsince.trans (le_max_left _ _)
  · intro b t ht hseq c hc hcrem
    obtain ⟨rfl, -⟩ := honly b t ht hseq
    rw [hbatches] at hc
    exact absurd (((hs.remaining c hc).map Entry.address).subset hcrem) (hout c hc)
  · intro b t ht hseq c hc hcin
    obtain ⟨rfl, -⟩ := honly b t ht hseq
    rw [hbatches] at hc
    exact absurd hcin (hout c hc)

end TzzeroHttp.TimerPunctual
