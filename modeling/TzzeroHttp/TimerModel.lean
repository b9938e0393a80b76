import TzzeroHttp.SortedSet

/-! The timer queue: two ordered sets of pointers to heap-allocated timers, and the batch of
expired timers that is in neither while their callbacks run. Times are exact rationals. A
`Timer*` is an address; following one that holds no timer is `none`, and which free address
`new` returns is part of the label of a step, like the readings of the clock. The sequence
counter `s_num_created_` is shared by all queues of the process. -/
namespace TzzeroHttp.TimerModel
open SortedSet

abbrev Address := ℕ

/-- `UINTPTR_MAX`, which is the address of no object. -/
def uintptrMax : Address := 2 ^ 64 - 1

structure Timer where
  expiration : ℚ
  interval : ℚ
  sequence : ℕ
  deriving DecidableEq

namespace Timer

def repeats (t : Timer) : Bool := 0 < t.interval

def restart (t : Timer) (now : ℚ) : Timer :=
  { t with expiration := if t.repeats then now + t.interval else 0 }

end Timer

abbrev Entry := ℚ ×ₗ Address
abbrev ActiveTimer := Address ×ₗ ℕ

def entry (when : ℚ) (a : Address) : Entry := toLex (when, a)
def Entry.when (e : Entry) : ℚ := (ofLex e).1
def Entry.address (e : Entry) : Address := (ofLex e).2
def activeTimer (a : Address) (sequence : ℕ) : ActiveTimer := toLex (a, sequence)

/-- `process_expired_timers` between its two ends: the clock it read, the entries it took
out, and those of them whose callback has not been started. -/
structure Batch where
  now : ℚ
  expired : List Entry
  remaining : List Entry

/-- What happened, in order: a timer was created, a callback was started by a batch, a
`cancel_timer` returned. -/
inductive Event
  | added (sequence : ℕ) (timer : Timer)
  | started (sequence : ℕ) (now : ℚ)
  | cancelled (id : ℕ)
  deriving DecidableEq

/-- The last `reset_timerfd`: when it was called and with which expiration. -/
structure Arming where
  setAt : ℚ
  expiration : ℚ

/-- `calling` holds a batch while `calling_expired_timers_` is set. Nothing reads
`canceling_timers_`. -/
structure TimerQueue where
  heap : Address → Option Timer := fun _ => none
  timers : OrderedSet Entry := ∅
  activeTimers : OrderedSet ActiveTimer := ∅
  numCreated : ℕ := 0
  calling : Option Batch := none
  armed : Option Arming := none
  log : List Event := []

namespace TimerQueue

/-- Returns whether the earliest expiration changed. -/
def insert (q : TimerQueue) (a : Address) (t : Timer) : Bool × TimerQueue :=
  (match q.timers.toList with
    | [] => true
    | e :: _ => t.expiration < e.when,
  { q with
    timers := q.timers.insert (entry t.expiration a),
    activeTimers := q.activeTimers.insert (activeTimer a t.sequence) })

def resetTimerfd (q : TimerQueue) (clock expiration : ℚ) : TimerQueue :=
  { q with armed := some ⟨clock, expiration⟩ }

/-- The new timer's sequence is the id that the caller gets. -/
def addTimer (q : TimerQueue) (now delay interval : ℚ) (a : Address) : TimerQueue :=
  let t : Timer := ⟨now + delay, interval, q.numCreated + 1⟩
  let q : TimerQueue := { q with
    heap := Function.update q.heap a (some t), numCreated := q.numCreated + 1,
    log := q.log ++ [.added t.sequence t] }
  let r := q.insert a t
  if r.1 ∧ r.2.timers.toList ≠ [] then r.2.resetTimerfd now t.expiration else r.2

/-- Linear search by id among the active timers. A timer of the current batch is not there,
and then nothing is done. -/
def cancelInLoop (q : TimerQueue) (id : ℕ) : Option TimerQueue :=
  match q.activeTimers.toList.find? (fun p => (ofLex p).2 = id) with
  | none => some q
  | some p =>
    let a := (ofLex p).1
    (q.heap a).map fun t => { q with
      activeTimers := q.activeTimers.erase p, timers := q.timers.erase (entry t.expiration a),
      heap := Function.update q.heap a none }

def cancelTimer (q : TimerQueue) (id : ℕ) : Option TimerQueue :=
  (q.cancelInLoop id).map fun q => { q with log := q.log ++ [.cancelled id] }

def eraseActive (q : TimerQueue) (e : Entry) : Option TimerQueue :=
  (q.heap e.address).map fun t =>
    { q with activeTimers := q.activeTimers.erase (activeTimer e.address t.sequence) }

def getExpired (q : TimerQueue) (now : ℚ) : Option (List Entry × TimerQueue) :=
  let sentry := entry now uintptrMax
  let expired := q.timers.below sentry
  (expired.foldlM eraseActive { q with timers := q.timers.notBelow sentry }).map fun q => (expired, q)

def beginBatch (q : TimerQueue) (now : ℚ) : Option TimerQueue :=
  match q.calling with
  | some _ => none
  | none => (q.getExpired now).map fun r => { r.2 with calling := some ⟨now, r.1, r.1⟩ }

/-- `entry.second->run()` for the next entry. What the callback then does are the steps up
to the next `runNext` or `endBatch`. -/
def runNext (q : TimerQueue) : Option TimerQueue :=
  q.calling.bind fun b =>
    match b.remaining with
    | [] => none
    | e :: rest => (q.heap e.address).map fun t => { q with
        calling := some { b with remaining := rest },
        log := q.log ++ [.started t.sequence b.now] }

def resetEntry (now : ℚ) (q : TimerQueue) (e : Entry) : Option TimerQueue :=
  (q.heap e.address).map fun t =>
    if t.repeats then
      let t := t.restart now
      ({ q with heap := Function.update q.heap e.address (some t) }.insert e.address t).2
    else { q with heap := Function.update q.heap e.address none }

/-- The loop of `reset`, over the entries of the batch. -/
def resetEntries (q : TimerQueue) (now : ℚ) (expired : List Entry) : Option TimerQueue :=
  expired.foldlM (resetEntry now) q

def endBatch (q : TimerQueue) (clock : ℚ) : Option TimerQueue :=
  q.calling.bind fun b =>
    if b.remaining = [] then
      (q.resetEntries b.now b.expired).bind fun q =>
        let q := { q with calling := none }
        match q.timers.toList with
        | [] => some q
        | e :: _ => (q.heap e.address).map fun t => q.resetTimerfd clock t.expiration
    else none

end TimerQueue

/-- `createElsewhere` is the creation of a timer by another queue. -/
inductive Label
  | addTimer (now delay interval : ℚ) (address : Address)
  | createElsewhere
  | cancelTimer (id : ℕ)
  | beginBatch (now : ℚ)
  | runNext
  | endBatch (clock : ℚ)
  deriving DecidableEq

/-- One step. `new` returns an address that holds no live timer. -/
def step (q : TimerQueue) : Label → Option TimerQueue
  | .addTimer now delay interval a =>
    if q.heap a = none ∧ a < uintptrMax then some (q.addTimer now delay interval a) else none
  | .createElsewhere => some { q with numCreated := q.numCreated + 1 }
  | .cancelTimer id => q.cancelTimer id
  | .beginBatch now => q.beginBatch now
  | .runNext => q.runNext
  | .endBatch clock => q.endBatch clock

end TzzeroHttp.TimerModel
