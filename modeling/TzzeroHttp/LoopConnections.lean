import TzzeroHttp.ConnectionInterest
import TzzeroHttp.ConnectionQueue
import TzzeroHttp.EventLoopModel
import TzzeroHttp.Simulation

/-! The established connections of one event loop. They share its functor queue, with each other
and with whatever else is queued in it, its batch of active events, which `poll` copies before the
first handler is called, and its fate: an exception out of one handler ends the loop for all. -/
namespace TzzeroHttp.LoopConnections
open BufferModel ConnectionInterest ConnectionQueue Runs
open ConnectionModel hiding Move step
open EventLoopModel hiding Call ThreadId step Label

inductive Entry (ι : Type*)
  | own (i : ι) (f : Functor)
  | user (task : ℕ)
  deriving DecidableEq

/-- `active` is the rest of the loop's `active_events_`. The connections' own queues are empty. -/
structure Loop (ι : Type*) where
  loop : EventLoop (Entry ι) := {}
  connections : ι → World
  active : List (ι × Events) := []
  uncaught : Bool := false

/-- `move` is any move of the loop thread that calls no connection. -/
inductive Label (ι : Type*)
  | move (m : Move)
  | poll (ready : List (ι × Events))
  | dispatch (readResult : ReadResult) (calls : List Call) (writeResult : WriteResult)
  | runFunctor (result : WriteResult) (calls : List Call)
  | call (thread : ThreadId) (i : ι) (call : Call)
  | connectionDestroyed (i : ι)
  | removeInLoop (thread : ThreadId) (i : ι)
  | queue (thread : ThreadId) (task : ℕ)
  | quit (thread : ThreadId)

variable {ι : Type*}

def queueAll {F : Type*} (s : EventLoop F) (fs : List F) : EventLoop F :=
  { s with
    pending := s.pending ++ fs, pushed := s.pushed ++ fs
    returned := s.returned ++ List.range' s.pushed.length fs.length }

def onLoop (loopThread : ThreadId) (cfg : Config) : Config := { cfg with loopThread := loopThread }

def MayCall (loopThread : ThreadId) (s : Loop ι) (t : ThreadId) : Prop :=
  t = loopThread → s.loop.point.inCallback = true

instance (loopThread : ThreadId) (s : Loop ι) (t : ThreadId) : Decidable (MayCall loopThread s t) :=
  inferInstanceAs (Decidable (_ → _))

def functorsOf [DecidableEq ι] (i : ι) (entries : List (Entry ι)) : List Functor :=
  entries.filterMap fun
    | .own j f => if j = i then some f else none
    | .user _ => none

namespace Loop

variable [DecidableEq ι]

/-- An operation of one connection; the loop's queue takes over what it has queued. -/
def perform (s : Loop ι) (i : ι) (op : World → World) : Loop ι :=
  let w := op (s.connections i)
  { s with
    loop := queueAll s.loop (w.pending.map (.own i))
    connections := Function.update s.connections i { w with pending := [] }
    uncaught := w.thrown.isSome }

def runEntry (cfg : ι → Config) (loopThread : ThreadId) (r : WriteResult) (cs : List Call) (s : Loop ι) :
    Entry ι → Loop ι
  | .own i f => s.perform i fun w => w.runFunctor (onLoop loopThread (cfg i)) r cs f
  | .user _ => s

def lift (loopThread : ThreadId) (s : Loop ι) (l : EventLoopModel.Label (Entry ι)) : Option (Loop ι) :=
  (EventLoopModel.step loopThread s.loop l).map fun e => { s with loop := e }

def view (s : Loop ι) (i : ι) : World :=
  under (functorsOf i s.loop.pending) (functorsOf i s.loop.batch) (s.connections i)

def established (initial : ι → ℕ) : Loop ι := { connections := fun i => ConnectionModel.established (initial i) }

end Loop

variable [DecidableEq ι]

/-- The functors are taken once all active events have been handled. -/
def step (cfg : ι → Config) (loopThread : ThreadId) (s : Loop ι) (l : Label ι) : Option (Loop ι) :=
  if s.uncaught then none
  else match l with
    | .move m =>
      if m = .runFunctor ∨ m = .pollReturns .events ∨ (m = .swap ∧ s.active ≠ []) then none
      else s.lift loopThread (.loop m)
    | .poll ready =>
      if (ready.map Prod.fst).Nodup ∧ ∀ x ∈ ready, (s.connections x.1).interest.isSome then
        (s.lift loopThread (.loop (.pollReturns .events))).map fun s' => { s' with active := ready }
      else none
    | .dispatch r cs r' =>
      match s.active with
      | [] => none
      | (i, e) :: rest =>
        some ({ s with active := rest }.perform i fun w => w.dispatch (onLoop loopThread (cfg i)) e r cs r')
    | .runFunctor r cs =>
      match s.loop.batch with
      | [] => none
      | entry :: _ => (s.lift loopThread (.loop .runFunctor)).map fun s' => s'.runEntry cfg loopThread r cs entry
    | .call t i c =>
      if MayCall loopThread s t then some (s.perform i fun w => w.doCall (onLoop loopThread (cfg i)) t c)
      else none
    | .connectionDestroyed i =>
      if s.loop.point.inCallback then
        some (s.perform i fun w => w.connectionDestroyed (onLoop loopThread (cfg i)))
      else none
    | .removeInLoop t i =>
      if t ≠ loopThread ∧ 0 < (s.connections i).removals then
        some (s.perform i fun w => { w with removals := w.removals - 1 }.removeConnectionInLoop)
      else none
    | .queue t task =>
      if MayCall loopThread s t then some { s with loop := queueAll s.loop [.user task] } else none
    | .quit t => s.lift loopThread (.call t .quit)

variable {cfg : ι → Config} {loopThread : ThreadId} {s s' : Loop ι}

inductive Moved (cfg : ι → Config) (loopThread : ThreadId) (s : Loop ι) : Label ι → Loop ι → Prop
  | move (m : Move) (e : EventLoop (Entry ι)) (hrun : m ≠ .runFunctor) (hpoll : m ≠ .pollReturns .events)
      (hswap : m = .swap → s.active = []) (hstep : EventLoopModel.step loopThread s.loop (.loop m) = some e) :
    Moved cfg loopThread s (.move m) { s with loop := e }
  | poll (ready : List (ι × Events)) (e : EventLoop (Entry ι))
      (hready : ∀ x ∈ ready, (s.connections x.1).interest.isSome)
      (hstep : EventLoopModel.step loopThread s.loop (.loop (.pollReturns .events)) = some e) :
    Moved cfg loopThread s (.poll ready) { s with loop := e, active := ready }
  | dispatch (r : ReadResult) (cs : List Call) (r' : WriteResult) (i : ι) (e : Events) (rest : List (ι × Events))
      (hactive : s.active = (i, e) :: rest) :
    Moved cfg loopThread s (.dispatch r cs r')
      ({ s with active := rest }.perform i fun w => w.dispatch (onLoop loopThread (cfg i)) e r cs r')
  | runFunctor (r : WriteResult) (cs : List Call) (entry : Entry ι) (entries : List (Entry ι))
      (e : EventLoop (Entry ι)) (hbatch : s.loop.batch = entry :: entries)
      (hstep : EventLoopModel.step loopThread s.loop (.loop .runFunctor) = some e) :
    Moved cfg loopThread s (.runFunctor r cs) ({ s with loop := e }.runEntry cfg loopThread r cs entry)
  | call (t : ThreadId) (i : ι) (c : Call) (hmay : MayCall loopThread s t) :
    Moved cfg loopThread s (.call t i c) (s.perform i fun w => w.doCall (onLoop loopThread (cfg i)) t c)
  | connectionDestroyed (i : ι) (hcallback : s.loop.point.inCallback = true) :
    Moved cfg loopThread s (.connectionDestroyed i)
      (s.perform i fun w => w.connectionDestroyed (onLoop loopThread (cfg i)))
  | removeInLoop (t : ThreadId) (i : ι) (ht : t ≠ loopThread) (hpos : 0 < (s.connections i).removals) :
    Moved cfg loopThread s (.removeInLoop t i)
      (s.perform i fun w => { w with removals := w.removals - 1 }.removeConnectionInLoop)
  | queue (t : ThreadId) (task : ℕ) (hmay : MayCall loopThread s t) :
    Moved cfg loopThread s (.queue t task) { s with loop := queueAll s.loop [.user task] }
  | quit (t : ThreadId) (e : EventLoop (Entry ι))
      (hstep : EventLoopModel.step loopThread s.loop (.call t .quit) = some e) :
    Moved cfg loopThread s (.quit t) { s with loop := e }

theorem step_moved {l : Label ι} (h : step cfg loopThread s l = some s') :
    s.uncaught = false ∧ Moved cfg loopThread s l s' := by
  obtain ⟨hcaught, h⟩ := Option.ite_none_left_eq_some.mp h
  refine ⟨by simpa using hcaught, ?_⟩
  cases l with
  | move m =>
    obtain ⟨hm, h⟩ := Option.ite_none_left_eq_some.mp h
    obtain ⟨e, he, rfl⟩ := Option.map_eq_some_iff.mp h
    simp only [not_or, not_and, not_not] at hm
    exact .move m e hm.1 hm.2.1 hm.2.2 he
  | poll ready =>
    obtain ⟨⟨-, hready⟩, h⟩ := Option.ite_none_right_eq_some.mp h
    obtain ⟨u, hu, rfl⟩ := Option.map_eq_some_iff.mp h
    obtain ⟨e, he, rfl⟩ := Option.map_eq_some_iff.mp hu
    exact .poll ready e hready he
  | dispatch r cs r' =>
    cases hactive : s.active with
    | nil => simp [hactive] at h
    | cons x rest =>
      simp only [hactive] at h
      obtain rfl := Option.some.inj h
      exact .dispatch r cs r' x.1 x.2 rest hactive
  | runFunctor r cs =>
    cases hbatch : s.loop.batch with
    | nil => simp [hbatch] at h
    | cons entry entries =>
      simp only [hbatch] at h
      obtain ⟨u, hu, rfl⟩ := Option.map_eq_some_iff.mp h
      obtain ⟨e, he, rfl⟩ := Option.map_eq_some_iff.mp hu
      exact .runFunctor r cs entry entries e hbatch he
  | call t i c =>
    obtain ⟨hmay, rfl⟩ := guard_eq_some h
    exact .call t i c hmay
  | connectionDestroyed i =>
    obtain ⟨hcallback, rfl⟩ := guard_eq_some h
    exact .connectionDestroyed i hcallback
  | removeInLoop t i =>
    obtain ⟨⟨ht, hpos⟩, rfl⟩ := guard_eq_some h
    exact .removeInLoop t i ht hpos
  | queue t task =>
    obtain ⟨hmay, rfl⟩ := guard_eq_some h
    exact .queue t task hmay
  | quit t =>
    obtain ⟨e, he, rfl⟩ := Option.map_eq_some_iff.mp h
    exact .quit t e he

end TzzeroHttp.LoopConnections
