import TzzeroHttp.ConnectionInterest

/-! A TCP server with the sockets it accepts. Each accepted connection is a world of its own on
the server's loop or on a worker's; the server holds it in `connections_`, which is the `entries`
of that world, and functors on the two loops hold it as well. A connection object is destroyed
when nobody holds it any more. A socket is a number that is never used again, a descriptor is
where the kernel keeps it while it is open. Where the source has undefined behaviour (a close
callback into a destroyed server, an entry erased under the destructor's iteration) there is no
step. -/
namespace TzzeroHttp.TcpServerModel
open ConnectionModel ConnectionInterest

abbrev Fd := ℕ
abbrev SocketId := ℕ

/-- `establishing` says that `connection_established` is queued in the connection's loop,
`stopped` that this loop is gone. -/
structure Member where
  socket : SocketId
  fd : Fd
  config : Config
  world : World
  establishing : Bool
  stopped : Bool := false
  destroyed : Bool := false

/-- `table` is the kernel's table of open accepted sockets, `closed` the sockets that were passed
to `::close`, in order. -/
structure TcpServer where
  alive : Bool := true
  members : List Member := []
  table : Fd → Option SocketId := fun _ => none
  accepted : ℕ := 0
  closed : List SocketId := []

/-- `newConnection` and `rejectConnection` are the two outcomes of the acceptor's `handle_read`:
the callback, or the close of the socket when there are too many open files. `act` is any move
of one connection, so the `shutdown()` calls of `stop()` are among them; the two last but one
are the ends of a worker's loop and of the server's, which come after the server's destructor. -/
inductive Label
  | newConnection (fd : Fd) (config : Config) (initial : ℕ)
  | rejectConnection (fd : Fd)
  | establish (i : ℕ)
  | act (i : ℕ) (act : Act)
  | destroyServer
  | loopEnds (i : ℕ)
  | serverLoopEnds
  | destroyConnection (i : ℕ)

namespace Member

/-- Nothing holds the connection: no entry of `connections_`, no functor that captured it. The
functors of a batch are kept until the batch is done. -/
def unreferenced (m : Member) : Bool :=
  m.world.entries = 0 ∧ m.world.removals = 0 ∧ m.establishing = false ∧ m.world.batch = [] ∧
    .connectionDestroyed ∉ m.world.pending

def establish (m : Member) : Option Member :=
  if m.establishing = true ∧ m.stopped = false then
    some { m with establishing := false, world := m.world.connectionEstablished }
  else none

/-- Before its establishment only calls from outside reach the connection. -/
def Ready (m : Member) : Act → Prop
  | .call _ _ => True
  | .connectionDestroyed => False
  | _ => m.establishing = false

instance (m : Member) : ∀ a, Decidable (m.Ready a)
  | .call _ _ => .isTrue trivial
  | .connectionDestroyed => .isFalse id
  | .swapFunctors | .runFunctor .. | .dispatch .. | .removeInLoop =>
    inferInstanceAs (Decidable (m.establishing = false))

/-- One move of the connection. A close calls back into the server, and so does a removal. -/
def act (m : Member) (alive : Bool) (a : Act) : Option Member :=
  if m.destroyed = false ∧ m.stopped = false ∧ m.Ready a then
    (stepAny m.config m.world a).bind fun w =>
      if alive = true ∨ (w.closes = m.world.closes ∧ w.removals = m.world.removals) then
        some { m with world := w }
      else none
  else none

/-- What the server's destructor does with one connection of its table, which is gone then. -/
def serverGone (m : Member) : Member :=
  if m.world.entries = 0 then m
  else
    let w := match m.config.closeCallback with
      | .otherLoop => m.world.queueInLoop .connectionDestroyed
      | _ => m.world.connectionDestroyed m.config
    { m with world := { w with entries := 0 } }

/-- On the server's own loop the close of a CONNECTED connection erases its entry while the
destructor iterates over the table. -/
def erasesUnderway (m : Member) : Bool :=
  m.world.entries ≠ 0 ∧ m.config.closeCallback = .sameLoop ∧ m.world.state = .connected

/-- The queued functors go with the loop that held them. -/
def stop (m : Member) : Member :=
  { m with stopped := true, establishing := false, world := { m.world with pending := [], batch := [] } }

def loopEnds (m : Member) (alive : Bool) : Option Member :=
  if alive = false ∧ m.config.closeCallback = .otherLoop then some m.stop else none

/-- On the server's loop there are also the removals that were queued from the other loops. -/
def serverLoopEnds (m : Member) : Member :=
  match m.config.closeCallback with
  | .otherLoop => { m with world := { m.world with removals := 0 } }
  | _ => m.stop

/-- `~TcpConnection`, which has nothing but a log line and an assertion. -/
def destroy (m : Member) : Option Member :=
  if m.destroyed = false ∧ m.unreferenced then some { m with destroyed := true } else none

end Member

namespace TcpServer

/-- `accept4` answers with a free descriptor. -/
def accept (s : TcpServer) (fd : Fd) : TcpServer :=
  { s with table := Function.update s.table fd (some s.accepted), accepted := s.accepted + 1 }

def close (s : TcpServer) (fd : Fd) : TcpServer :=
  { s with table := Function.update s.table fd none, closed := s.closed ++ (s.table fd).toList }

/-- `run_in_loop` establishes the connection at once on the server's own loop. -/
def newConnection (s : TcpServer) (fd : Fd) (config : Config) (initial : ℕ) : TcpServer :=
  let m : Member := match config.closeCallback with
    | .otherLoop => ⟨s.accepted, fd, config, created initial, true, false, false⟩
    | _ => ⟨s.accepted, fd, config, (created initial).connectionEstablished, false, false, false⟩
  { s.accept fd with members := s.members ++ [m] }

def onMember (s : TcpServer) (i : ℕ) (f : Member → Option Member) : Option TcpServer :=
  (s.members[i]?).bind fun m => (f m).map fun m' => { s with members := s.members.set i m' }

end TcpServer

def step (s : TcpServer) : Label → Option TcpServer
  | .newConnection fd config initial =>
    if s.alive = true ∧ s.table fd = none ∧ config.closeCallback ≠ .none then
      some (s.newConnection fd config initial)
    else none
  | .rejectConnection fd =>
    if s.alive = true ∧ s.table fd = none then some ((s.accept fd).close fd) else none
  | .establish i => s.onMember i Member.establish
  | .act i a => s.onMember i fun m => m.act s.alive a
  | .destroyServer =>
    if s.alive = true ∧ ∀ m ∈ s.members, m.erasesUnderway = false then
      some { s with alive := false, members := s.members.map Member.serverGone }
    else none
  | .loopEnds i => s.onMember i fun m => m.loopEnds s.alive
  | .serverLoopEnds =>
    if s.alive = false then some { s with members := s.members.map Member.serverLoopEnds } else none
  | .destroyConnection i => s.onMember i Member.destroy

end TzzeroHttp.TcpServerModel
