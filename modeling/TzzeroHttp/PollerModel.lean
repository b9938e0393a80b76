import TzzeroHttp.ConnectionModel
import TzzeroHttp.Runs

/-! The epoll poller and the part of the event loop that calls its callbacks. `poll` copies the
callbacks of all ready descriptors into a batch; timers, and then the callbacks of the batch one
after the other, may change the registrations. What a callback does is a list of calls, which come
as steps of their own after the one that invokes it. An interrupted poll changes nothing. -/
namespace TzzeroHttp.PollerModel
open ConnectionModel

abbrev Fd := ℕ

/-- The bits of `epoll_event::events` that the poller looks at. -/
structure EpollBits where
  epollin : Bool := false
  epollpri : Bool := false
  epollrdhup : Bool := false
  epollout : Bool := false
  epollerr : Bool := false
  epollhup : Bool := false

def epollToEvents (b : EpollBits) : Events where
  read := b.epollin || b.epollpri || b.epollrdhup
  write := b.epollout
  error := b.epollerr || b.epollhup

def eventsToEpoll (e : Events) : EpollBits where
  epollin := e.read
  epollpri := e.read
  epollout := e.write

variable {C : Type*}

/-- `callback` is none for an empty `std::function`. -/
structure PollEvent (C : Type*) where
  fd : Fd
  events : Events
  callback : Option C

/-- `interest` is the kernel's list behind `epoll_fd_`, `capacity` the size of `events_`. -/
structure EpollPoller (C : Type*) where
  interest : Fd → Option EpollBits := fun _ => none
  fdCallbacks : Fd → Option (Option C) := fun _ => none
  capacity : ℕ := 16

inductive Call (C : Type*)
  | addFd (fd : Fd) (events : Events) (callback : Option C)
  | modifyFd (fd : Fd) (events : Events) (callback : Option C)
  | removeFd (fd : Fd)

namespace EpollPoller

/-- What `epoll_wait` answers: at most as many events as there is room for, and only descriptors of
the interest list, each once. -/
def Reports (p : EpollPoller C) (ready : List (Fd × EpollBits)) : Prop :=
  ready.length ≤ p.capacity ∧ (ready.map Prod.fst).Nodup ∧ ∀ r ∈ ready, (p.interest r.1).isSome

instance (p : EpollPoller C) (ready : List (Fd × EpollBits)) : Decidable (p.Reports ready) :=
  inferInstanceAs (Decidable (_ ∧ _))

def poll (p : EpollPoller C) (ready : List (Fd × EpollBits)) : EpollPoller C × List (PollEvent C) :=
  ({ p with capacity := if ready.length = p.capacity then p.capacity * 2 else p.capacity },
    ready.filterMap fun r => (p.fdCallbacks r.1).map fun callback => ⟨r.1, epollToEvents r.2, callback⟩)

def setFd (p : EpollPoller C) (fd : Fd) (events : Events) (callback : Option C) : EpollPoller C :=
  { p with
    interest := Function.update p.interest fd (some (eventsToEpoll events))
    fdCallbacks := Function.update p.fdCallbacks fd (some callback) }

/-- `EPOLL_CTL_ADD` fails for a descriptor that is in the list, the other two for one that is not. -/
def perform (p : EpollPoller C) : Call C → Except PollerError (EpollPoller C)
  | .addFd fd events callback =>
    if (p.interest fd).isSome then .error .addFailed else .ok (p.setFd fd events callback)
  | .modifyFd fd events callback =>
    if (p.interest fd).isSome then .ok (p.setFd fd events callback) else .error .modifyFailed
  | .removeFd fd =>
    if (p.interest fd).isSome then
      .ok { p with
        interest := Function.update p.interest fd none
        fdCallbacks := Function.update p.fdCallbacks fd none }
    else .error .removeFailed

end EpollPoller

/-- `removed` are the descriptors passed to `remove_fd` since the last poll; `invoked` are the
callbacks called, with the descriptor and whether its registration was still in place. -/
structure EventLoop (C : Type*) where
  poller : EpollPoller C
  activeEvents : List (PollEvent C) := []
  removed : List Fd := []
  invoked : List (Fd × Bool) := []
  thrown : Option PollerError := none

/-- `next` takes the next event of the batch and calls its callback. -/
inductive Label (C : Type*)
  | poll (ready : List (Fd × EpollBits))
  | call (call : Call C)
  | next

def Call.removes : Call C → List Fd
  | .removeFd fd => [fd]
  | _ => []

namespace EventLoop

def call (l : EventLoop C) (c : Call C) : EventLoop C :=
  let l := { l with removed := l.removed ++ c.removes }
  match l.poller.perform c with
  | .ok p => { l with poller := p }
  | .error e => { l with thrown := some e }

def invoke (l : EventLoop C) (e : PollEvent C) : EventLoop C :=
  if e.callback.isSome then { l with invoked := l.invoked ++ [(e.fd, decide (e.fd ∉ l.removed))] } else l

end EventLoop

/-- A batch is worked off before the next poll; nothing catches an exception. -/
def step (l : EventLoop C) : Label C → Option (EventLoop C)
  | .poll ready =>
    if l.thrown = none ∧ l.activeEvents = [] ∧ l.poller.Reports ready then
      some { l with
        poller := (l.poller.poll ready).1, activeEvents := (l.poller.poll ready).2, removed := [] }
    else none
  | .call c => if l.thrown = none then some (l.call c) else none
  | .next =>
    match l.activeEvents with
    | [] => none
    | e :: rest => if l.thrown = none then some ({ l with activeEvents := rest }.invoke e) else none

end TzzeroHttp.PollerModel
