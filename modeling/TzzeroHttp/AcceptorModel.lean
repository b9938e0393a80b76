import TzzeroHttp.Runs

/-! The acceptor: the listening socket, the descriptor kept in reserve, and `handle_read` as it
makes one system call after the other, with other threads opening and closing descriptors in
between. `limit` is the size of the descriptor table that fills up, the process's (EMFILE) or the
system's (ENFILE); `others` counts what is open in it besides the reserve and a connection that
`handle_read` is about to reject. -/
namespace TzzeroHttp.AcceptorModel
open Runs

def maxAcceptPerLoop : ℕ := 10000

/-- Where `handle_read` is: before its turn `i` of the loop, and in the branch for a full table
before each of its four calls. -/
inductive Point (Peer : Type*)
  | outside
  | accepting (i : ℕ)
  | saturated
  | retrying
  | rejecting (peer : Peer)
  | reopening
  deriving DecidableEq

inductive AcceptError
  | wouldBlock | tooManyFiles | other
  deriving DecidableEq

/-- `idle` says that `idle_fd_` is a descriptor, `bound` that `bind_and_listen` has succeeded, and
`collected` that the batch of the last poll still holds an event of the listening socket. The
others record what happened: the peers whose handshake is complete, those taken from the backlog
with whether the callback got them, how many had been taken when the last `handle_read` began,
and whether the backlog held any then. -/
structure Acceptor (Peer : Type*) where
  limit : ℕ
  others : ℕ
  hasCallback : Bool := true
  bound : Bool := false
  listening : Bool := false
  idle : Bool := true
  collected : Bool := false
  point : Point Peer := .outside
  backlog : List Peer := []
  arrived : List Peer := []
  taken : List (Peer × Bool) := []
  entered : ℕ := 0
  pressed : Bool := false

/-- `openOther` and `closeOther` are made by anyone else, the callback among them. A poll reports
the socket if it is `readable` and registered. -/
inductive Label (Peer : Type*)
  | arrive (peer : Peer)
  | openOther
  | closeOther
  | listen
  | disableListening
  | poll (readable : Bool)
  | handleRead
  | accept (failure : Option AcceptError)
  | closeIdle
  | retry (failed : Bool)
  | closeRejected
  | reopen

variable {Peer : Type*}

namespace Point

def inHand : Point Peer → List Peer
  | .rejecting peer => [peer]
  | _ => []

/-- User code runs: outside, and in the callback. -/
def callable : Point Peer → Bool
  | .outside | .accepting _ => true
  | _ => false

end Point

namespace Acceptor

/-- The constructor, with what is open behind it; nobody looks whether the reserve was opened. -/
def new (Peer : Type*) (limit others : ℕ) (hasCallback : Bool) : Acceptor Peer :=
  { limit := limit, others := others, hasCallback := hasCallback, idle := others < limit }

def files (s : Acceptor Peer) : ℕ := s.others + s.idle.toNat + s.point.inHand.length

/-- `new_connection_callback_`, or `::close` when there is none. -/
def take (s : Acceptor Peer) (i : ℕ) (peer : Peer) (rest : List Peer) : Acceptor Peer :=
  { s with
    backlog := rest
    taken := s.taken ++ [(peer, s.hasCallback)]
    others := if s.hasCallback then s.others + 1 else s.others
    point := if i + 1 < maxAcceptPerLoop then .accepting (i + 1) else .outside }

/-- A second `bind` of the same socket fails, and `listen` throws. -/
def listen (s : Acceptor Peer) : Option (Acceptor Peer) :=
  if s.listening then some s
  else if s.bound then none else some { s with bound := true, listening := true }

/-- The `accept` after the reserve has been closed; `failed` is an error of its own. -/
def retry (s : Acceptor Peer) (failed : Bool) : Acceptor Peer :=
  match s.backlog with
  | [] => { s with point := .reopening }
  | peer :: rest =>
    if !failed && s.files < s.limit then { s with backlog := rest, point := .rejecting peer }
    else { s with point := .reopening }

end Acceptor

/-- `handle_read` does not ask whether the socket is still registered. -/
def step (s : Acceptor Peer) : Label Peer → Option (Acceptor Peer)
  | .arrive peer =>
    if s.bound then some { s with backlog := s.backlog ++ [peer], arrived := s.arrived ++ [peer] } else none
  | .openOther => if s.files < s.limit then some { s with others := s.others + 1 } else none
  | .closeOther => if 0 < s.others then some { s with others := s.others - 1 } else none
  | .listen => if s.point.callable then s.listen else none
  | .disableListening => if s.point.callable then some { s with listening := false } else none
  | .poll readable =>
    match s.point with
    | .outside => some { s with collected := readable && s.listening }
    | _ => none
  | .handleRead =>
    match s.point with
    | .outside =>
      if s.collected then
        some { s with
          collected := false, point := .accepting 0, entered := s.taken.length
          pressed := !s.backlog.isEmpty }
      else none
    | _ => none
  | .accept none =>
    match s.point, s.backlog with
    | .accepting i, peer :: rest => if s.files < s.limit then some (s.take i peer rest) else none
    | _, _ => none
  | .accept (some e) =>
    match s.point, e with
    | .accepting _, .wouldBlock => if s.backlog.isEmpty then some { s with point := .outside } else none
    | .accepting _, .tooManyFiles => if s.limit ≤ s.files then some { s with point := .saturated } else none
    | .accepting _, .other => some { s with point := .outside }
    | _, _ => none
  | .closeIdle =>
    match s.point with
    | .saturated => some { s with idle := false, point := .retrying }
    | _ => none
  | .retry failed =>
    match s.point with
    | .retrying => some (s.retry failed)
    | _ => none
  | .closeRejected =>
    match s.point with
    | .rejecting peer => some { s with taken := s.taken ++ [(peer, false)], point := .reopening }
    | _ => none
  | .reopen =>
    match s.point with
    | .reopening => some { s with idle := s.files < s.limit, point := .outside }
    | _ => none

inductive Move (s : Acceptor Peer) : Label Peer → Acceptor Peer → Prop
  | arrive (peer : Peer) (hbound : s.bound = true) :
    Move s (.arrive peer) { s with backlog := s.backlog ++ [peer], arrived := s.arrived ++ [peer] }
  | openOther (hroom : s.files < s.limit) : Move s .openOther { s with others := s.others + 1 }
  | closeOther (hpos : 0 < s.others) : Move s .closeOther { s with others := s.others - 1 }
  | listenAgain (hlistening : s.listening = true) : Move s .listen s
  | listen (hp : s.point.callable = true) (hbound : s.bound = false) :
    Move s .listen { s with bound := true, listening := true }
  | disableListening (hp : s.point.callable = true) : Move s .disableListening { s with listening := false }
  | poll (readable : Bool) (hp : s.point = .outside) :
    Move s (.poll readable) { s with collected := readable && s.listening }
  | handleRead (hp : s.point = .outside) (hcollected : s.collected = true) :
    Move s .handleRead { s with
      collected := false, point := .accepting 0, entered := s.taken.length
      pressed := !s.backlog.isEmpty }
  | take (i : ℕ) (peer : Peer) (rest : List Peer) (hp : s.point = .accepting i)
      (hbacklog : s.backlog = peer :: rest) (hroom : s.files < s.limit) :
    Move s (.accept none) (s.take i peer rest)
  | wouldBlock (i : ℕ) (hp : s.point = .accepting i) (hbacklog : s.backlog = []) :
    Move s (.accept (some .wouldBlock)) { s with point := .outside }
  | tooManyFiles (i : ℕ) (hp : s.point = .accepting i) (hfull : s.limit ≤ s.files) :
    Move s (.accept (some .tooManyFiles)) { s with point := .saturated }
  | otherError (i : ℕ) (hp : s.point = .accepting i) :
    Move s (.accept (some .other)) { s with point := .outside }
  | closeIdle (hp : s.point = .saturated) : Move s .closeIdle { s with idle := false, point := .retrying }
  | retry (failed : Bool) (hp : s.point = .retrying) : Move s (.retry failed) (s.retry failed)
  | closeRejected (peer : Peer) (hp : s.point = .rejecting peer) :
    Move s .closeRejected { s with taken := s.taken ++ [(peer, false)], point := .reopening }
  | reopen (hp : s.point = .reopening) :
    Move s .reopen { s with idle := s.files < s.limit, point := .outside }

theorem step_move {s s' : Acceptor Peer} {l : Label Peer} (h : step s l = some s') : Move s l s' := by
  cases l with
  | arrive peer =>
    obtain ⟨hbound, rfl⟩ := guard_eq_some h
    exact .arrive peer hbound
  | openOther =>
    obtain ⟨hroom, rfl⟩ := guard_eq_some h
    exact .openOther hroom
  | closeOther =>
    obtain ⟨hpos, rfl⟩ := guard_eq_some h
    exact .closeOther hpos
  | listen =>
    obtain ⟨hp, h⟩ := Option.ite_none_right_eq_some.mp h
    unfold Acceptor.listen at h
    split_ifs at h with hlistening hbound
    · obtain rfl := Option.some.inj h
      exact .listenAgain hlistening
    · obtain rfl := Option.some.inj h
      exact .listen hp (by simpa using hbound)
  | disableListening =>
    obtain ⟨hp, rfl⟩ := guard_eq_some h
    exact .disableListening hp
  | poll readable =>
    cases hp : s.point with
    | outside =>
      simp only [step, hp] at h
      obtain rfl := Option.some.inj h
      rw [← hp]
      exact .poll readable hp
    | _ => simp [step, hp] at h
  | handleRead =>
    cases hp : s.point with
    | outside =>
      simp only [step, hp] at h
      obtain ⟨hcollected, rfl⟩ := guard_eq_some h
      exact .handleRead hp hcollected
    | _ => simp [step, hp] at h
  | accept failure =>
    cases hp : s.point with
    | accepting i =>
      cases failure with
      | none =>
        cases hbacklog : s.backlog with
        | nil => simp [step, hp, hbacklog] at h
        | cons peer rest =>
          simp only [step, hp, hbacklog] at h
          obtain ⟨hroom, rfl⟩ := guard_eq_some h
          exact .take i peer rest hp hbacklog hroom
      | some e =>
        cases e with
        | wouldBlock =>
          simp only [step, hp] at h
          obtain ⟨hbacklog, rfl⟩ := guard_eq_some h
          exact .wouldBlock i hp (by simpa using hbacklog)
        | tooManyFiles =>
          simp only [step, hp] at h
          obtain ⟨hfull, rfl⟩ := guard_eq_some h
          exact .tooManyFiles i hp hfull
        | other =>
          simp only [step, hp] at h
          obtain rfl := Option.some.inj h
          exact .otherError i hp
    | _ => cases failure <;> simp [step, hp] at h
  | closeIdle =>
    cases hp : s.point with
    | saturated =>
      simp only [step, hp] at h
      obtain rfl := Option.some.inj h
      exact .closeIdle hp
    | _ => simp [step, hp] at h
  | retry failed =>
    cases hp : s.point with
    | retrying =>
      simp only [step, hp] at h
      obtain rfl := Option.some.inj h
      exact .retry failed hp
    | _ => simp [step, hp] at h
  | closeRejected =>
    cases hp : s.point with
    | rejecting peer =>
      simp only [step, hp] at h
      obtain rfl := Option.some.inj h
      exact .closeRejected peer hp
    | _ => simp [step, hp] at h
  | reopen =>
    cases hp : s.point with
    | reopening =>
      simp only [step, hp] at h
      obtain rfl := Option.some.inj h
      exact .reopen hp
    | _ => simp [step, hp] at h

end TzzeroHttp.AcceptorModel
