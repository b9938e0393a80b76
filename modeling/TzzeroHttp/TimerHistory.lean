import TzzeroHttp.TimerBatch

/-! When timers are started, over whole runs. A callback may call `process_expired_timers`
again, so there is a stack of batches, and the pointers that one of them has taken out are
in no set and in no other batch. -/
namespace TzzeroHttp.TimerHistory
open SortedSet TimerModel TimerInvariant TimerOwnership TimerBatch Runs

/-- A queue with the batches whose callbacks are waiting for an inner batch, innermost first. -/
structure Nested where
  queue : TimerQueue := {}
  outer : List Batch := []

namespace Nested

def batches (s : Nested) : List Batch := s.queue.calling.toList ++ s.outer

def out (s : Nested) : List Entry := s.batches.flatMap Batch.expired

/-- A batch may begin while a callback of another one runs, and when it ends that callback
goes on. -/
def step (s : Nested) : Label → Option Nested
  | .beginBatch now =>
    if ∀ b ∈ s.queue.calling, b.remaining ≠ b.expired then
      ({ s.queue with calling := none }.beginBatch now).map fun q => ⟨q, s.batches⟩
    else none
  | .endBatch clock => (s.queue.endBatch clock).map fun q =>
      ⟨{ q with calling := s.outer.head? }, s.outer.tail⟩
  | l => (TimerModel.step s.queue l).map fun q => { s with queue := q }

end Nested

def startsOf (id : ℕ) (log : List Event) : List ℚ :=
  ((starts log).filter (·.1 = id)).map Prod.snd

structure Sane (s : Nested) : Prop where
  sound : Sound s.queue s.out
  remaining : ∀ b ∈ s.batches, b.remaining <:+ b.expired
  due : ∀ b ∈ s.batches, ∀ e ∈ b.expired, e.when ≤ b.now

/-- No batch in progress has started the timer at this address. -/
def Unstarted (s : Nested) (a : Address) : Prop :=
  ∀ b ∈ s.batches, a ∈ b.expired.map Entry.address → a ∈ b.remaining.map Entry.address

/-- What holds of a timer that was added for the time `first` with the given interval: its
starts are in order, and where it is still to be started its expiration lies far enough
behind them. -/
structure Timed (s : Nested) (id : ℕ) (first interval : ℚ) : Prop where
  created : id ≤ s.queue.numCreated
  late : ∀ n ∈ startsOf id s.queue.log, first ≤ n
  spaced : 0 < interval → (startsOf id s.queue.log).Pairwise fun m n => m + interval ≤ n
  once : interval ≤ 0 → (startsOf id s.queue.log).length ≤ 1
  timer : ∀ a t, s.queue.heap a = some t → t.sequence = id → t.interval = interval ∧ first ≤ t.expiration
  waiting : ∀ a t, s.queue.heap a = some t → t.sequence = id → Unstarted s a →
    (∀ m ∈ startsOf id s.queue.log, m + interval ≤ t.expiration) ∧
      (interval ≤ 0 → startsOf id s.queue.log = [])
  started : ∀ a t, s.queue.heap a = some t → t.sequence = id → ∀ b ∈ s.batches,
    a ∈ b.expired.map Entry.address → a ∉ b.remaining.map Entry.address →
    ∀ m ∈ startsOf id s.queue.log, m ≤ b.now

variable {s s' : Nested} {id : ℕ} {first interval : ℚ}

theorem startsOf_append (id : ℕ) (a b : List Event) :
    startsOf id (a ++ b) = startsOf id a ++ startsOf id b := by
  rw [startsOf, starts_append, List.filter_append, List.map_append]
  rfl

theorem startsOf_started (id n : ℕ) (now : ℚ) :
    startsOf id [.started n now] = if n = id then [now] else [] := by
  by_cases hn : n = id
  · simp [startsOf, starts, hn]
  · simp [startsOf, starts, hn]

theorem startsOf_other {id n : ℕ} (h : n ≠ id) (log : List Event) (now : ℚ) :
    startsOf id (log ++ [.started n now]) = startsOf id log := by
  rw [startsOf_append, startsOf_started, if_neg h, List.append_nil]

theorem startsOf_self {id n : ℕ} (h : n = id) (log : List Event) (now : ℚ) :
    startsOf id (log ++ [.started n now]) = startsOf id log ++ [now] := by
  rw [startsOf_append, startsOf_started, if_pos h]

theorem Nested.add_cases {now delay interval : ℚ} {a : Address}
    (h : s.step (.addTimer now delay interval a) = some s') :
    s.queue.heap a = none ∧ a < uintptrMax ∧
      s' = { s with queue := s.queue.addTimer now delay interval a } := by
  obtain ⟨q, hq, rfl⟩ := Option.map_eq_some_iff.mp h
  obtain ⟨hfree, hlt, rfl⟩ := addTimer_step hq
  exact ⟨hfree, hlt, rfl⟩

theorem Nested.create_cases (h : s.step .createElsewhere = some s') :
    s' = { s with queue.numCreated := s.queue.numCreated + 1 } :=
  (Option.some.inj h).symm

theorem Nested.cancel_cases {other : ℕ} (h : s.step (.cancelTimer other) = some s') :
    ∃ q, s.queue.cancelTimer other = some q ∧ s' = { s with queue := q } := by
  obtain ⟨q, hq, rfl⟩ := Option.map_eq_some_iff.mp h
  exact ⟨q, hq, rfl⟩

theorem Nested.begin_cases {now : ℚ} (h : s.step (.beginBatch now) = some s') :
    s'.batches = ⟨now, s.queue.timers.below (entry now uintptrMax),
      s.queue.timers.below (entry now uintptrMax)⟩ :: s.batches ∧
    s'.queue.heap = s.queue.heap ∧ s'.queue.numCreated = s.queue.numCreated ∧
    s'.queue.log = s.queue.log ∧
    ∀ out, Sound s.queue out → Sound s'.queue (s.queue.timers.below (entry now uintptrMax) ++ out) := by
  obtain ⟨-, h⟩ := Option.ite_none_right_eq_some.mp h
  obtain ⟨q, hq, rfl⟩ := Option.map_eq_some_iff.mp h
  obtain ⟨-, hcalling, hheap, -, hcreated, hlog, -⟩ := beginBatch_fields hq
  refine ⟨?_, hheap, hcreated, hlog, fun out hsound => ?_⟩
  · rw [Nested.batches, hcalling]
    rfl
  · have hidle : Sound { s.queue with calling := none } out := hsound.congr rfl rfl rfl le_rfl
    exact beginBatch_sound hidle hq

theorem Nested.end_cases {clock : ℚ} (h : s.step (.endBatch clock) = some s') :
    ∃ b, s.batches = b :: s'.batches ∧ b.remaining = [] ∧
      ∀ out, Sound s.queue (b.expired ++ out) → Sound s'.queue out ∧
        (∀ a, s'.queue.heap a = if a ∈ b.expired.map Entry.address then
          (s.queue.heap a).bind (afterReset b.now) else s.queue.heap a) ∧
        s'.queue.numCreated = s.queue.numCreated ∧ s'.queue.log = s.queue.log := by
  obtain ⟨q, hq, rfl⟩ := Option.map_eq_some_iff.mp h
  obtain ⟨b, q₁, hb, hrem, hreset, hheap, htimers, hactive, hcreated, hlog, -⟩ := endBatch_cases hq
  refine ⟨b, ?_, hrem, fun out hsound => ?_⟩
  · rw [Nested.batches, hb, Nested.batches]
    cases s.outer <;> rfl
  · obtain ⟨hsound₁, hheap₁, hcreated₁, hlog₁⟩ := resetEntries_spec hsound hreset
    refine ⟨hsound₁.congr hheap htimers hactive hcreated.ge, fun a => ?_, ?_, ?_⟩
    · exact (congrFun hheap a).trans (hheap₁ a)
    · exact hcreated.trans hcreated₁
    · exact hlog.trans hlog₁

theorem Nested.runNext_cases (h : s.step .runNext = some s') :
    ∃ b e rest t, s.batches = b :: s.outer ∧ b.remaining = e :: rest ∧
      s.queue.heap e.address = some t ∧ s'.batches = { b with remaining := rest } :: s.outer ∧
      s'.queue.heap = s.queue.heap ∧ s'.queue.timers = s.queue.timers ∧
      s'.queue.activeTimers = s.queue.activeTimers ∧ s'.queue.numCreated = s.queue.numCreated ∧
      s'.queue.log = s.queue.log ++ [.started t.sequence b.now] := by
  obtain ⟨q, hq, rfl⟩ := Option.map_eq_some_iff.mp h
  obtain ⟨b, e, rest, t, hb, hrem, ht, rfl⟩ := TimerInvariant.runNext_cases hq
  refine ⟨b, e, rest, t, ?_, hrem, ht, rfl, rfl, rfl, rfl, rfl, rfl⟩
  rw [Nested.batches, hb]
  rfl

theorem initial_sane : Sane {} := by
  refine ⟨?_, by simp [Nested.batches], by simp [Nested.batches]⟩
  constructor <;> simp [Nested.out, Nested.batches]

theorem Sane.keep (h : Sane s) (hbatches : s'.batches = s.batches)
    (hsound : ∀ out, Sound s.queue out → Sound s'.queue out) : Sane s' where
  sound := by
    rw [Nested.out, hbatches]
    exact hsound _ h.sound
  remaining := by
    rw [hbatches]
    exact h.remaining
  due := by
    rw [hbatches]
    exact h.due

theorem step_sane {l : Label} (h : Sane s) (hstep : s.step l = some s') : Sane s' := by
  cases l with
  | addTimer now delay interval a =>
    obtain ⟨hfree, hlt, rfl⟩ := Nested.add_cases hstep
    obtain ⟨-, -, -, -, hcalling, -⟩ := addTimer_fields s.queue now delay interval a
    refine h.keep ?_ fun out hsound => addTimer_sound hsound now delay interval hfree hlt
    rw [Nested.batches, Nested.batches, hcalling]
  | createElsewhere =>
    obtain rfl := Nested.create_cases hstep
    exact h.keep rfl fun out hsound => hsound.congr rfl rfl rfl (Nat.le_succ _)
  | cancelTimer other =>
    obtain ⟨q, hq, rfl⟩ := Nested.cancel_cases hstep
    obtain ⟨-, -, -, hcalling, -, -⟩ := cancelTimer_fields hq
    refine h.keep ?_ fun out hsound => cancelTimer_sound hsound hq
    rw [Nested.batches, Nested.batches, hcalling]
  | beginBatch now =>
    obtain ⟨hbatches, -, -, -, hsound⟩ := Nested.begin_cases hstep
    constructor
    · rw [Nested.out, hbatches]
      exact hsound _ h.sound
    · rw [hbatches, List.forall_mem_cons]
      exact ⟨List.suffix_refl _, h.remaining⟩
    · rw [hbatches, List.forall_mem_cons]
      refine ⟨fun e he => ?_, h.due⟩
      have hlt := (OrderedSet.mem_below.mp he).2
      exact (Prod.Lex.le_iff.mp hlt.le).elim le_of_lt fun heq => heq.1.le
  | runNext =>
    obtain ⟨b, e, rest, t, hb, hrem, -, hbatches, hheap, htimers, hactive, hcreated, -⟩ :=
      Nested.runNext_cases hstep
    have hsound := h.sound
    have hremaining := h.remaining
    have hdue := h.due
    rw [hb, List.forall_mem_cons] at hremaining hdue
    rw [Nested.out, hb] at hsound
    constructor
    · rw [Nested.out, hbatches]
      exact hsound.congr hheap htimers hactive hcreated.ge
    · rw [hbatches, List.forall_mem_cons]
      have hsuffix := hremaining.1
      rw [hrem] at hsuffix
      exact ⟨(List.suffix_cons e rest).trans hsuffix, hremaining.2⟩
    · rw [hbatches, List.forall_mem_cons]
      exact hdue
  | endBatch clock =>
    obtain ⟨b, hb, -, hend⟩ := Nested.end_cases hstep
    have hsound := h.sound
    rw [Nested.out, hb, List.flatMap_cons] at hsound
    constructor
    · exact (hend _ hsound).1
    · exact fun c hc => h.remaining c (by simp [hb, hc])
    · exact fun c hc => h.due c (by simp [hb, hc])

/-- What is taken out is taken out once, so the innermost batch shares no timer with another. -/
theorem Sane.apart (h : Sane s) {b : Batch} {bs : List Batch} (hb : s.batches = b :: bs) :
    (b.expired.map Entry.address).Nodup ∧ ∀ a ∈ b.expired.map Entry.address, ∀ c ∈ bs,
      a ∉ c.expired.map Entry.address := by
  have hnodup := addresses_nodup h.sound.out_nodup h.sound.out_heap
  rw [Nested.out, hb, List.flatMap_cons, List.map_append, List.nodup_append] at hnodup
  refine ⟨hnodup.1, fun a ha c hc hac => hnodup.2.2 a ha a ?_ rfl⟩
  obtain ⟨e, he, rfl⟩ := List.mem_map.mp hac
  exact List.mem_map_of_mem (List.mem_flatMap.mpr ⟨c, hc, he⟩)

/-- The entry whose callback comes next is nowhere else. -/
theorem Sane.next (h : Sane s) {b : Batch} {bs : List Batch} {e : Entry} {rest : List Entry}
    (hb : s.batches = b :: bs) (hrem : b.remaining = e :: rest) :
    e.address ∈ b.expired.map Entry.address ∧ e.address ∉ rest.map Entry.address ∧
      ∀ c ∈ bs, e.address ∉ c.expired.map Entry.address := by
  have hsuffix := h.remaining b (by simp [hb])
  rw [hrem] at hsuffix
  obtain ⟨hnodup, hapart⟩ := h.apart hb
  have hin : e.address ∈ b.expired.map Entry.address :=
    List.mem_map_of_mem (hsuffix.subset List.mem_cons_self)
  have hcons := hnodup.sublist (hsuffix.sublist.map Entry.address)
  rw [List.map_cons, List.nodup_cons] at hcons
  exact ⟨hin, hcons.1, hapart e.address hin⟩

/-- The entry that leaves `remaining` is not one of another timer. -/
theorem mem_remaining_other {q : TimerQueue} {b : Batch} {e : Entry} {rest : List Entry} {t u : Timer}
    {a : Address} (hrem : b.remaining = e :: rest) (ht : q.heap e.address = some t) (hseq : t.sequence ≠ id)
    (hu : q.heap a = some u) (huseq : u.sequence = id) :
    a ∈ b.remaining.map Entry.address ↔ a ∈ rest.map Entry.address := by
  have hne : a ≠ e.address := by
    rintro rfl
    rw [ht] at hu
    exact hseq (Option.some.inj hu ▸ huseq)
  rw [hrem, List.map_cons, List.mem_cons, or_iff_right hne]

theorem Sane.expiration_le (h : Sane s) {b : Batch} (hb : b ∈ s.batches) {a : Address} {t : Timer}
    (ha : a ∈ b.expired.map Entry.address) (ht : s.queue.heap a = some t) : t.expiration ≤ b.now := by
  obtain ⟨e, he, rfl⟩ := List.mem_map.mp ha
  have hout : e ∈ s.out := List.mem_flatMap.mpr ⟨b, hb, he⟩
  obtain ⟨u, hu, hexp⟩ := h.sound.out_heap e hout
  obtain rfl : t = u := Option.some.inj (ht.symm.trans hu)
  rw [hexp]
  exact h.due b hb e he

/-- A step that starts other timers at most: what the starts themselves say is kept. -/
theorem Timed.of_starts (h : Timed s id first interval)
    (hcreated : s.queue.numCreated ≤ s'.queue.numCreated)
    (hlog : startsOf id s'.queue.log = startsOf id s.queue.log)
    (htimer : ∀ a t, s'.queue.heap a = some t → t.sequence = id →
      t.interval = interval ∧ first ≤ t.expiration)
    (hwaiting : ∀ a t, s'.queue.heap a = some t → t.sequence = id → Unstarted s' a →
      (∀ m ∈ startsOf id s.queue.log, m + interval ≤ t.expiration) ∧
        (interval ≤ 0 → startsOf id s.queue.log = []))
    (hstarted : ∀ a t, s'.queue.heap a = some t → t.sequence = id → ∀ b ∈ s'.batches,
      a ∈ b.expired.map Entry.address → a ∉ b.remaining.map Entry.address →
      ∀ m ∈ startsOf id s.queue.log, m ≤ b.now) : Timed s' id first interval := by
  rw [← hlog] at hwaiting hstarted
  refine ⟨h.created.trans hcreated, ?_, ?_, ?_, htimer, hwaiting, hstarted⟩
  · rw [hlog]
    exact h.late
  · rw [hlog]
    exact h.spaced
  · rw [hlog]
    exact h.once

/-- A step that starts no callback and leaves the batches: it only matters which timers with
the id are there. -/
theorem Timed.keep (h : Timed s id first interval) (hbatches : s'.batches = s.batches)
    (hcreated : s.queue.numCreated ≤ s'.queue.numCreated)
    (hlog : startsOf id s'.queue.log = startsOf id s.queue.log)
    (hheap : ∀ a t, s'.queue.heap a = some t → t.sequence = id → s.queue.heap a = some t) :
    Timed s' id first interval := by
  refine h.of_starts hcreated hlog ?_ ?_ ?_
  · intro a t ht hseq
    exact h.timer a t (hheap a t ht hseq) hseq
  · intro a t ht hseq hun
    rw [Unstarted, hbatches] at hun
    exact h.waiting a t (hheap a t ht hseq) hseq hun
  · intro a t ht hseq
    rw [hbatches]
    exact h.started a t (hheap a t ht hseq) hseq

theorem addTimer_timed (h : Timed s id first interval) {now delay interval' : ℚ} {a : Address}
    (hstep : s.step (.addTimer now delay interval' a) = some s') : Timed s' id first interval := by
  obtain ⟨-, -, rfl⟩ := Nested.add_cases hstep
  obtain ⟨hheap, -, -, hcreated, hcalling, hlog⟩ := addTimer_fields s.queue now delay interval' a
  refine h.keep ?_ (by rw [hcreated]; exact Nat.le_succ _) ?_ ?_
  · rw [Nested.batches, Nested.batches, hcalling]
  · rw [hlog, startsOf_append]
    exact List.append_nil _
  · intro b t ht hseq
    rw [hheap, update_eq_some] at ht
    rcases ht with ⟨-, hself⟩ | ⟨-, ht⟩
    · have hnew : t.sequence = s.queue.numCreated + 1 := by rw [← Option.some.inj hself]
      have hold := h.created
      omega
    · exact ht

theorem cancelTimer_timed (h : Timed s id first interval) {other : ℕ}
    (hstep : s.step (.cancelTimer other) = some s') : Timed s' id first interval := by
  obtain ⟨q, hq, rfl⟩ := Nested.cancel_cases hstep
  obtain ⟨hheap, -, hcreated, hcalling, -, hlog⟩ := cancelTimer_fields hq
  refine h.keep ?_ hcreated.ge ?_ fun b u hu _ => hheap b u hu
  · rw [Nested.batches, Nested.batches, hcalling]
  · rw [hlog, startsOf_append]
    exact List.append_nil _

theorem beginBatch_timed (h : Timed s id first interval) {now : ℚ}
    (hstep : s.step (.beginBatch now) = some s') : Timed s' id first interval := by
  obtain ⟨hbatches, hheap, hcreated, hlog, -⟩ := Nested.begin_cases hstep
  refine h.of_starts hcreated.ge (by rw [hlog]) ?_ ?_ ?_
  · rw [hheap]
    exact h.timer
  · intro a t ht hseq hun
    rw [hheap] at ht
    rw [Unstarted, hbatches, List.forall_mem_cons] at hun
    exact h.waiting a t ht hseq hun.2
  · intro a t ht hseq
    rw [hheap] at ht
    rw [hbatches, List.forall_mem_cons]
    exact ⟨fun hin hnot => absurd hin hnot, h.started a t ht hseq⟩

theorem runNext_timed_other (h : Timed s id first interval)
    {b : Batch} {e : Entry} {rest : List Entry} {bs : List Batch} {t : Timer}
    (hb : s.batches = b :: bs) (hrem : b.remaining = e :: rest)
    (ht : s.queue.heap e.address = some t) (hseq : t.sequence ≠ id)
    (hbatches : s'.batches = { b with remaining := rest } :: bs)
    (hheap : s'.queue.heap = s.queue.heap) (hcreated : s'.queue.numCreated = s.queue.numCreated)
    (hlog : s'.queue.log = s.queue.log ++ [.started t.sequence b.now]) :
    Timed s' id first interval := by
  have hsame : startsOf id s'.queue.log = startsOf id s.queue.log := by
    rw [hlog, startsOf_other hseq]
  refine h.of_starts hcreated.ge hsame ?_ ?_ ?_
  · rw [hheap]
    exact h.timer
  · intro a u hu huseq hun
    rw [hheap] at hu
    refine h.waiting a u hu huseq ?_
    rw [Unstarted, hbatches, List.forall_mem_cons] at hun
    rw [Unstarted, hb, List.forall_mem_cons, mem_remaining_other hrem ht hseq hu huseq]
    exact hun
  · intro a u hu huseq
    rw [hheap] at hu
    have hold := h.started a u hu huseq
    rw [hb, List.forall_mem_cons, mem_remaining_other hrem ht hseq hu huseq] at hold
    rw [hbatches, List.forall_mem_cons]
    exact hold

/-- One more start behind others, at the time that they allow or later. -/
theorem starts_extend {runs : List ℚ} {first interval expiration now : ℚ}
    (hlate : ∀ n ∈ runs, first ≤ n)
    (hspaced : 0 < interval → runs.Pairwise fun m n => m + interval ≤ n)
    (hgap : ∀ m ∈ runs, m + interval ≤ expiration) (hnone : interval ≤ 0 → runs = [])
    (hfirst : first ≤ expiration) (hdue : expiration ≤ now) :
    (∀ n ∈ runs ++ [now], first ≤ n) ∧
      (0 < interval → (runs ++ [now]).Pairwise fun m n => m + interval ≤ n) ∧
      (interval ≤ 0 → (runs ++ [now]).length ≤ 1) ∧ ∀ m ∈ runs ++ [now], m ≤ now := by
  refine ⟨?_, ?_, ?_, ?_⟩
  · intro n hn
    rw [List.mem_append, List.mem_singleton] at hn
    rcases hn with hn | rfl
    · exact hlate n hn
    · exact hfirst.trans hdue
  · intro hpos
    rw [List.pairwise_append]
    refine ⟨hspaced hpos, List.pairwise_singleton _ _, fun m hm n hn => ?_⟩
    rw [List.mem_singleton.mp hn]
    exact (hgap m hm).trans hdue
  · intro hle
    rw [hnone hle]
    rfl
  · intro m hm
    rw [List.mem_append, List.mem_singleton] at hm
    rcases hm with hm | rfl
    · rcases lt_or_ge 0 interval with hpos | hle
      · have hm' := hgap m hm
        linarith
      · rw [hnone hle] at hm
        exact absurd hm List.not_mem_nil
    · exact le_rfl

/-- The start of the timer itself: it has waited long enough. -/
theorem runNext_timed_self (hs : Sane s) (h : Timed s id first interval)
    {b : Batch} {e : Entry} {rest : List Entry} {bs : List Batch} {t : Timer}
    (hb : s.batches = b :: bs) (hrem : b.remaining = e :: rest)
    (ht : s.queue.heap e.address = some t) (hseq : t.sequence = id)
    (hbatches : s'.batches = { b with remaining := rest } :: bs)
    (hheap : s'.queue.heap = s.queue.heap) (hcreated : s'.queue.numCreated = s.queue.numCreated)
    (hlog : s'.queue.log = s.queue.log ++ [.started t.sequence b.now]) :
    Timed s' id first interval := by
  have hbmem : b ∈ s.batches := by simp [hb]
  obtain ⟨he, hgone, hapart⟩ := hs.next hb hrem
  have hunstarted : Unstarted s e.address := by
    rw [Unstarted, hb, List.forall_mem_cons]
    exact ⟨fun _ => by simp [hrem], fun c hc hin => absurd hin (hapart c hc)⟩
  obtain ⟨hgap, hnone⟩ := h.waiting e.address t ht hseq hunstarted
  obtain ⟨hinterval, hfirst⟩ := h.timer e.address t ht hseq
  have hdue : t.expiration ≤ b.now := hs.expiration_le hbmem he ht
  have hruns : startsOf id s'.queue.log = startsOf id s.queue.log ++ [b.now] := by
    rw [hlog, startsOf_self hseq]
  obtain ⟨hlate, hspaced, honce, hbefore⟩ :=
    starts_extend h.late h.spaced hgap hnone hfirst hdue
  rw [← hruns] at hlate hspaced honce hbefore
  have honly : ∀ a u, s.queue.heap a = some u → u.sequence = id → a = e.address := by
    intro a u hu huseq
    exact hs.sound.sequence_inj a e.address u t hu ht (huseq.trans hseq.symm)
  constructor
  · rw [hcreated]
    exact h.created
  · exact hlate
  · exact hspaced
  · exact honce
  · rw [hheap]
    exact h.timer
  · intro a u hu huseq hun
    rw [hheap] at hu
    obtain rfl := honly a u hu huseq
    rw [Unstarted, hbatches, List.forall_mem_cons] at hun
    exact absurd (hun.1 he) hgone
  · intro a u hu huseq
    rw [hheap] at hu
    obtain rfl := honly a u hu huseq
    rw [hbatches, List.forall_mem_cons]
    exact ⟨fun _ _ => hbefore, fun c hc hin => absurd hin (hapart c hc)⟩

/-- The end of a batch: the next expiration lies an interval behind its clock. -/
theorem endBatch_timed (hs : Sane s) (h : Timed s id first interval) {clock : ℚ}
    (hstep : s.step (.endBatch clock) = some s') : Timed s' id first interval := by
  obtain ⟨b, hb, hrem, hend⟩ := Nested.end_cases hstep
  have hbmem : b ∈ s.batches := by simp [hb]
  have hsound := hs.sound
  rw [Nested.out, hb, List.flatMap_cons] at hsound
  obtain ⟨-, hheap, hcreated, hlog⟩ := hend _ hsound
  obtain ⟨-, hapart⟩ := hs.apart hb
  have hrestarted : ∀ a t, s.queue.heap a = some t → t.sequence = id →
      a ∈ b.expired.map Entry.address → ∀ m ∈ startsOf id s.queue.log, m ≤ b.now := by
    intro a t ht hseq hin
    exact h.started a t ht hseq b hbmem hin (by simp [hrem])
  refine h.of_starts hcreated.ge (by rw [hlog]) ?_ ?_ ?_
  · intro a u hu hseq
    rw [hheap] at hu
    rcases reset_eq_some hu with ⟨-, ht⟩ | ⟨hin, t, ht, hrep, rfl⟩
    · exact h.timer a u ht hseq
    · obtain ⟨hinterval, hfirst⟩ := h.timer a t ht hseq
      have hdue := hs.expiration_le hbmem hin ht
      have hpos : 0 < t.interval := by simpa [Timer.repeats] using hrep
      exact ⟨hinterval, by simp only; linarith⟩
  · intro a u hu hseq hun
    rw [hheap] at hu
    rcases reset_eq_some hu with ⟨hnot, ht⟩ | ⟨hin, t, ht, hrep, rfl⟩
    · refine h.waiting a u ht hseq ?_
      rw [Unstarted, hb, List.forall_mem_cons]
      exact ⟨fun hin => absurd hin hnot, hun⟩
    · obtain ⟨hinterval, -⟩ := h.timer a t ht hseq
      have hpos : 0 < t.interval := by simpa [Timer.repeats] using hrep
      refine ⟨fun m hm => ?_, fun hle => absurd hpos (by rw [hinterval]; exact not_lt.mpr hle)⟩
      have hm' := hrestarted a t ht hseq hin m hm
      simp only [hinterval]
      linarith
  · intro a u hu hseq c hc hin hnot
    rw [hheap] at hu
    rcases reset_eq_some hu with ⟨-, ht⟩ | ⟨hinb, t, ht, -, rfl⟩
    · exact h.started a u ht hseq c (by simp [hb, hc]) hin hnot
    · exact absurd hin (hapart a hinb c hc)

theorem step_timed {l : Label} (hs : Sane s) (h : Timed s id first interval)
    (hstep : s.step l = some s') : Timed s' id first interval := by
  cases l with
  | addTimer now delay interval' a => exact addTimer_timed h hstep
  | createElsewhere =>
    obtain rfl := Nested.create_cases hstep
    exact h.keep rfl (Nat.le_succ _) rfl fun a t ht _ => ht
  | cancelTimer other => exact cancelTimer_timed h hstep
  | beginBatch now => exact beginBatch_timed h hstep
  | runNext =>
    obtain ⟨b, e, rest, t, hb, hrem, ht, hbatches, hheap, -, -, hcreated, hlog⟩ :=
      Nested.runNext_cases hstep
    by_cases hseq : t.sequence = id
    · exact runNext_timed_self hs h hb hrem ht hseq hbatches hheap hcreated hlog
    · exact runNext_timed_other h hb hrem ht hseq hbatches hheap hcreated hlog
  | endBatch clock => exact endBatch_timed hs h hstep

/-- Only timers that exist have been started. -/
def Known (s : Nested) : Prop := ∀ p ∈ starts s.queue.log, p.1 ≤ s.queue.numCreated

theorem Known.keep (h : Known s) (hlog : starts s'.queue.log = starts s.queue.log)
    (hcreated : s.queue.numCreated ≤ s'.queue.numCreated) : Known s' := by
  intro p hp
  rw [hlog] at hp
  exact (h p hp).trans hcreated

theorem step_known {l : Label} (hs : Sane s) (h : Known s) (hstep : s.step l = some s') : Known s' := by
  cases l with
  | addTimer now delay interval a =>
    obtain ⟨-, -, rfl⟩ := Nested.add_cases hstep
    obtain ⟨-, -, -, hcreated, -, hlog⟩ := addTimer_fields s.queue now delay interval a
    refine h.keep ?_ (by rw [hcreated]; exact Nat.le_succ _)
    rw [hlog, starts_append]
    exact List.append_nil _
  | createElsewhere =>
    obtain rfl := Nested.create_cases hstep
    exact h.keep rfl (Nat.le_succ _)
  | cancelTimer other =>
    obtain ⟨q, hq, rfl⟩ := Nested.cancel_cases hstep
    obtain ⟨-, -, hcreated, -, -, hlog⟩ := cancelTimer_fields hq
    refine h.keep ?_ hcreated.ge
    rw [hlog, starts_append]
    exact List.append_nil _
  | beginBatch now =>
    obtain ⟨-, -, hcreated, hlog, -⟩ := Nested.begin_cases hstep
    exact h.keep (by rw [hlog]) hcreated.ge
  | runNext =>
    obtain ⟨b, e, rest, t, -, -, ht, -, -, -, -, hcreated, hlog⟩ := Nested.runNext_cases hstep
    intro p hp
    rw [hlog, starts_append, List.mem_append] at hp
    rw [hcreated]
    rcases hp with hp | hp
    · exact h p hp
    · rw [List.mem_singleton.mp hp]
      exact hs.sound.sequence_le _ t ht
  | endBatch clock =>
    obtain ⟨b, hb, -, hend⟩ := Nested.end_cases hstep
    have hsound := hs.sound
    rw [Nested.out, hb, List.flatMap_cons] at hsound
    obtain ⟨-, -, hcreated, hlog⟩ := hend _ hsound
    exact h.keep (by rw [hlog]) hcreated.ge

theorem reachable_sane {labels : List Label} (hrun : run Nested.step {} labels = some s) :
    Sane s ∧ Known s := by
  have hstep : ∀ (s : Nested) l s', Sane s ∧ Known s → s.step l = some s' → Sane s' ∧ Known s' :=
    fun _ _ _ h hs => ⟨step_sane h.1 hs, step_known h.1 h.2 hs⟩
  have hknown : Known {} := fun p hp => absurd hp List.not_mem_nil
  have hinv := run_preserves hstep ⟨initial_sane, hknown⟩ hrun
  exact hinv

theorem added_timed (hs : Sane s) (hknown : Known s) {now delay : ℚ} {a : Address}
    (hstep : s.step (.addTimer now delay interval a) = some s') :
    Timed s' (s.queue.numCreated + 1) (now + delay) interval := by
  obtain ⟨hfree, -, rfl⟩ := Nested.add_cases hstep
  obtain ⟨hheap, -, -, hcreated, hcalling, hlog⟩ := addTimer_fields s.queue now delay interval a
  have hruns : startsOf (s.queue.numCreated + 1) (s.queue.addTimer now delay interval a).log = [] := by
    rw [hlog, startsOf_append, startsOf, List.filter_eq_nil_iff.mpr]
    · rfl
    · intro p hp
      have hle := hknown p hp
      simp only [decide_eq_true_eq]
      omega
  have honly : ∀ b t, (s.queue.addTimer now delay interval a).heap b = some t →
      t.sequence = s.queue.numCreated + 1 → b = a ∧ t = ⟨now + delay, interval, s.queue.numCreated + 1⟩ := by
    intro b t ht hseq
    rw [hheap, update_eq_some] at ht
    rcases ht with ⟨hba, hself⟩ | ⟨-, ht⟩
    · exact ⟨hba, (Option.some.inj hself).symm⟩
    · have hle := hs.sound.sequence_le b t ht
      omega
  constructor
  · exact hcreated.ge
  · simp [hruns]
  · simp [hruns]
  · simp [hruns]
  · intro b t ht hseq
    obtain ⟨-, rfl⟩ := honly b t ht hseq
    exact ⟨rfl, le_rfl⟩
  · simp [hruns]
  · simp [hruns]

/-- No timer is started early. In every run, a timer that is added at `clock` with `delay` is
started only by batches that read at least `clock + delay`, a repeating timer with its interval
between any two starts, and any other one at most once. -/
theorem never_early (before after : List Label) (s₁ s : Nested) (clock delay interval : ℚ)
    (a : Address) (hbefore : run Nested.step {} before = some s₁)
    (hafter : run Nested.step s₁ (.addTimer clock delay interval a :: after) = some s) :
    let runs := startsOf (s₁.queue.numCreated + 1) s.queue.log
    (∀ n ∈ runs, clock + delay ≤ n) ∧
      (0 < interval → runs.Pairwise fun m n => m + interval ≤ n) ∧
      (interval ≤ 0 → runs.length ≤ 1) := by
  intro runs
  obtain ⟨hsane, hknown⟩ := reachable_sane hbefore
  obtain ⟨s₂, hadd, hrest⟩ := run_cons.mp hafter
  have hstep : ∀ (s : Nested) l s', Sane s ∧ Timed s (s₁.queue.numCreated + 1) (clock + delay) interval →
      s.step l = some s' → Sane s' ∧ Timed s' (s₁.queue.numCreated + 1) (clock + delay) interval :=
    fun _ _ _ h hs => ⟨step_sane h.1 hs, step_timed h.1 h.2 hs⟩
  have htimed := run_preserves hstep ⟨step_sane hsane hadd, added_timed hsane hknown hadd⟩ hrest
  exact ⟨htimed.2.late, htimed.2.spaced, htimed.2.once⟩

/-- The callback of the repeating timer 1 processes the expired timers again before it
returns; timer 2 is a one-shot timer of the outer batch. -/
theorem never_early_nested :
    let after : List Label := [.addTimer 0 1 0 32, .beginBatch 3, .runNext, .beginBatch 3, .endBatch 3,
      .runNext, .endBatch 3, .beginBatch 4, .endBatch 4, .beginBatch 6, .runNext, .endBatch 6]
    ∃ s, run Nested.step {} (.addTimer 0 1 2 16 :: after) = some s ∧
      startsOf 1 s.queue.log = [3, 6] ∧ startsOf 2 s.queue.log = [3] ∧
      (∀ n ∈ startsOf 1 s.queue.log, (0 : ℚ) + 1 ≤ n) ∧
      (startsOf 1 s.queue.log).Pairwise fun m n => m + 2 ≤ n := by
  intro after
  have hruns : (run Nested.step {} (.addTimer 0 1 2 16 :: after)).map
      (fun s => (startsOf 1 s.queue.log, startsOf 2 s.queue.log)) = some ([3, 6], [3]) := by
    decide +kernel
  obtain ⟨s, hs, hlog⟩ := Option.map_eq_some_iff.mp hruns
  obtain ⟨h₁, h₂⟩ := Prod.mk.inj hlog
  obtain ⟨hlate, hspaced, -⟩ := never_early [] after {} s 0 1 2 16 rfl hs
  exact ⟨s, hs, h₁, h₂, hlate, hspaced (by norm_num)⟩

end TzzeroHttp.TimerHistory
