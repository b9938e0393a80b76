import TzzeroHttp.BufferQueue

/-! One TCP connection on its event loop: the connection object, its registration with the
poller, the loop's functor queue, and the server's entry for it. Other threads call in; the
loop thread dispatches poller events and runs functors. A label of `step` is one such move
together with what the system calls in it answer and what the user's callbacks do. The
assertions are those of the release build, which compiles them out. -/
namespace TzzeroHttp.ConnectionModel
open ByteText BufferModel BufferQueue

abbrev ThreadId := ℕ

inductive ConnState
  | connecting | connected | disconnecting | disconnected
  deriving DecidableEq, Repr

structure Events where
  read : Bool := false
  write : Bool := false
  error : Bool := false
  deriving DecidableEq, Repr

inductive PollerError
  | addFailed | modifyFailed | removeFailed
  deriving DecidableEq, Repr

inductive Functor
  | sendInLoop (thread : ThreadId) (message : Bytes)
  | shutdownInLoop
  | forceCloseInLoop
  | writeComplete
  | highWaterMark (size : ℕ)
  | connectionDestroyed
  deriving DecidableEq, Repr

inductive SocketEvent
  | wrote (data : Bytes)
  | shutWr
  deriving DecidableEq, Repr

/-- Where `TcpServer::remove_connection` runs: no server, the connection's own loop, or
another one. -/
inductive CloseCallback
  | none | sameLoop | otherLoop
  deriving DecidableEq, Repr

structure Config where
  loopThread : ThreadId := 0
  writeCompleteCallback : Bool := false
  highWaterMarkCallback : Bool := false
  highWaterMark : ℕ := 64 * 1024 * 1024
  closeCallback : CloseCallback := .sameLoop

/-- `issued` and `executed` record the `send` calls that passed their test and the runs of
`send_in_loop`, `closes` the close transitions begun; `entries` is how often the server's
table holds the connection, `removals` the removals waiting in another loop and `erasures`
what each `erase` returned. -/
structure World where
  state : ConnState := .connecting
  input : ByteBuffer
  output : ByteBuffer
  interest : Option Events := none
  pending : List Functor := []
  batch : List Functor := []
  socket : List SocketEvent := []
  issued : List (ThreadId × Bytes) := []
  executed : List (ThreadId × Bytes) := []
  closes : ℕ := 0
  thrown : Option PollerError := none
  entries : ℕ := 1
  removals : ℕ := 0
  erasures : List ℕ := []

/-- What a callback or another thread can do to the connection. `retrieve` takes bytes from
the input buffer; `send` carries what a direct `write` would answer. -/
inductive Call
  | send (message : Bytes) (result : WriteResult)
  | shutdown
  | forceClose
  | retrieve (len : ℕ)
  deriving DecidableEq

namespace World

/-- Statement sequence: an exception skips the rest. -/
def andThen (w : World) (f : World → World) : World := if w.thrown.isSome then w else f w

def throw (w : World) (e : PollerError) : World := { w with thrown := some e }

def addFd (events : Events) (w : World) : World :=
  match w.interest with
  | none => { w with interest := some events }
  | some _ => w.throw .addFailed

def modifyFd (events : Events) (w : World) : World :=
  match w.interest with
  | some _ => { w with interest := some events }
  | none => w.throw .modifyFailed

def removeFd (w : World) : World :=
  match w.interest with
  | some _ => { w with interest := none }
  | none => w.throw .removeFailed

def queueInLoop (f : Functor) (w : World) : World := { w with pending := w.pending ++ [f] }

def removeConnectionInLoop (w : World) : World :=
  { w with entries := 0, erasures := w.erasures ++ [w.entries] }.queueInLoop .connectionDestroyed

/-- `close_callback_`, which is `TcpServer::remove_connection`. -/
def closeCallback (cfg : Config) (w : World) : World :=
  match cfg.closeCallback with
  | .none => w
  | .sameLoop => w.removeConnectionInLoop
  | .otherLoop => { w with removals := w.removals + 1 }

def handleClose (cfg : Config) (w : World) : World :=
  ({ w with state := .disconnected, closes := w.closes + 1 }.removeFd).andThen (closeCallback cfg)

/-- `err` is never read from the socket, so there is nothing to log. -/
def handleError (cfg : Config) (w : World) : World := w.handleClose cfg

/-- The end of `send_in_loop`: what was not written goes behind the output buffer. -/
def bufferRemaining (cfg : Config) (remaining : Bytes) (w : World) : World :=
  if remaining = [] then w
  else
    let oldLen := w.output.readableBytes
    let w := if cfg.highWaterMark ≤ oldLen + remaining.length ∧ oldLen < cfg.highWaterMark ∧
        cfg.highWaterMarkCallback then w.queueInLoop (.highWaterMark (oldLen + remaining.length))
      else w
    { w with output := w.output.append remaining }.modifyFd { read := true, write := true }

/-- The direct `write`: the kernel takes at most what it is given. EPIPE and ECONNRESET drop
the message, every other failure buffers all of it. -/
def sendInLoop (cfg : Config) (thread : ThreadId) (data : Bytes) (result : WriteResult) (w : World) :
    World :=
  let w := { w with executed := w.executed ++ [(thread, data)] }
  if w.state = .connected ∧ w.output.readableBytes = 0 then
    match result with
    | .wrote n =>
      let w : World := { w with socket := w.socket ++ [.wrote (data.take n)] }
      let w := if data.drop n = [] ∧ cfg.writeCompleteCallback then w.queueInLoop .writeComplete else w
      w.bufferRemaining cfg (data.drop n)
    | .failed e =>
      if e = .brokenPipe ∨ e = .connectionReset then w else w.bufferRemaining cfg data
  else w.bufferRemaining cfg data

def shutdownInLoop (w : World) : World :=
  if w.output.readableBytes = 0 then { w with socket := w.socket ++ [.shutWr] } else w

def forceCloseInLoop (cfg : Config) (w : World) : World :=
  if w.state = .connected ∨ w.state = .disconnecting then w.handleClose cfg else w

def send (cfg : Config) (t : ThreadId) (message : Bytes) (result : WriteResult) (w : World) : World :=
  if w.state = .connected then
    let w := { w with issued := w.issued ++ [(t, message)] }
    if t = cfg.loopThread then w.sendInLoop cfg t message result
    else w.queueInLoop (.sendInLoop t message)
  else w

def shutdown (cfg : Config) (t : ThreadId) (w : World) : World :=
  if w.state = .connected then
    let w := { w with state := .disconnecting }
    if t = cfg.loopThread then w.shutdownInLoop else w.queueInLoop .shutdownInLoop
  else w

def forceClose (cfg : Config) (t : ThreadId) (w : World) : World :=
  if w.state = .connected ∨ w.state = .disconnecting then
    let w := { w with state := .disconnecting }
    if t = cfg.loopThread then w.forceCloseInLoop cfg else w.queueInLoop .forceCloseInLoop
  else w

def connectionEstablished (w : World) : World :=
  { w with state := .connected }.addFd { read := true }

def connectionDestroyed (cfg : Config) (w : World) : World :=
  if w.state = .connected then
    ({ w with state := .disconnected, closes := w.closes + 1 }.removeFd).andThen (closeCallback cfg)
  else w

def doCall (cfg : Config) (t : ThreadId) (w : World) : Call → World
  | .send message result => w.send cfg t message result
  | .shutdown => w.shutdown cfg t
  | .forceClose => w.forceClose cfg t
  | .retrieve len => { w with input := w.input.retrieve len }

/-- A user callback on the loop thread: the calls it makes. No callback is no calls. -/
def doCalls (cfg : Config) (w : World) : List Call → World
  | [] => w
  | c :: cs => (w.doCall cfg cfg.loopThread c).andThen fun w => w.doCalls cfg cs

def handleRead (cfg : Config) (result : ReadResult) (calls : List Call) (w : World) : World :=
  let w := { w with input := w.input.readFd result }
  match result with
  | .received [] => w.handleClose cfg
  | .received _ => w.doCalls cfg calls
  | .failed _ => w.handleError cfg

def outputDrained (cfg : Config) (w : World) : World :=
  (w.modifyFd { read := true }).andThen fun w =>
    let w := if cfg.writeCompleteCallback then w.queueInLoop .writeComplete else w
    if w.state = .disconnecting then w.shutdownInLoop else w

def handleWrite (cfg : Config) (result : WriteResult) (w : World) : World :=
  if w.state = .connected then
    match result with
    | .wrote n =>
      let data := w.output.readable.take n
      if data = [] then w
      else
        let w : World := { w with
          socket := w.socket ++ [.wrote data], output := w.output.writeFd (.wrote data.length) }
        if w.output.readableBytes = 0 then w.outputDrained cfg else w
    | .failed _ => w
  else w

def dispatch (cfg : Config) (events : Events) (readResult : ReadResult) (calls : List Call)
    (writeResult : WriteResult) (w : World) : World :=
  ((if events.read then w.handleRead cfg readResult calls else w).andThen fun w =>
    if events.write then w.handleWrite cfg writeResult else w).andThen fun w =>
      if events.error then w.handleError cfg else w

def runFunctor (cfg : Config) (result : WriteResult) (calls : List Call) (w : World) :
    Functor → World
  | .sendInLoop thread message => w.sendInLoop cfg thread message result
  | .shutdownInLoop => w.shutdownInLoop
  | .forceCloseInLoop => w.forceCloseInLoop cfg
  | .writeComplete => w.doCalls cfg calls
  | .highWaterMark _ => w.doCalls cfg calls
  | .connectionDestroyed => w.connectionDestroyed cfg

end World

/-- One move. A call is made by any thread; `swapFunctors` and `runFunctor` are the two parts
of `do_pending_functors`; the server calls `connection_destroyed` and, in its own loop,
`remove_connection_in_loop`. -/
inductive Act
  | call (thread : ThreadId) (call : Call)
  | swapFunctors
  | runFunctor (result : WriteResult) (calls : List Call)
  | dispatch (events : Events) (readResult : ReadResult) (calls : List Call)
      (writeResult : WriteResult)
  | connectionDestroyed
  | removeInLoop
  deriving DecidableEq

/-- An event is dispatched only for a registered descriptor and between two batches of
functors; an exception has ended the loop. -/
def step (cfg : Config) (w : World) (a : Act) : Option World :=
  if w.thrown.isSome then none
  else match a with
    | .call t c => some (w.doCall cfg t c)
    | .swapFunctors =>
      if w.batch = [] then some { w with batch := w.pending, pending := [] } else none
    | .runFunctor result calls =>
      match w.batch with
      | [] => none
      | f :: fs => some ({ w with batch := fs }.runFunctor cfg result calls f)
    | .dispatch events readResult calls writeResult =>
      if w.interest.isSome ∧ w.batch = [] then
        some (w.dispatch cfg events readResult calls writeResult)
      else none
    | .connectionDestroyed => some (w.connectionDestroyed cfg)
    | .removeInLoop =>
      if 0 < w.removals then some ({ w with removals := w.removals - 1 }.removeConnectionInLoop)
      else none

inductive Move (cfg : Config) (w : World) : Act → World → Prop
  | call (t : ThreadId) (c : Call) : Move cfg w (.call t c) (w.doCall cfg t c)
  | swapFunctors (hbatch : w.batch = []) :
    Move cfg w .swapFunctors { w with batch := w.pending, pending := [] }
  | runFunctor (r : WriteResult) (cs : List Call) (f : Functor) (fs : List Functor)
      (hbatch : w.batch = f :: fs) :
    Move cfg w (.runFunctor r cs) ({ w with batch := fs }.runFunctor cfg r cs f)
  | dispatch (e : Events) (r : ReadResult) (cs : List Call) (r' : WriteResult)
      (hinterest : w.interest.isSome) (hbatch : w.batch = []) :
    Move cfg w (.dispatch e r cs r') (w.dispatch cfg e r cs r')
  | connectionDestroyed : Move cfg w .connectionDestroyed (w.connectionDestroyed cfg)
  | removeInLoop (hremovals : 0 < w.removals) :
    Move cfg w .removeInLoop ({ w with removals := w.removals - 1 }.removeConnectionInLoop)

theorem step_move {cfg : Config} {w w' : World} {a : Act} (h : step cfg w a = some w') :
    w.thrown = none ∧ Move cfg w a w' := by
  unfold step at h
  by_cases hthrown : w.thrown.isSome
  · simp [hthrown] at h
  · refine ⟨by simpa using hthrown, ?_⟩
    rw [if_neg hthrown] at h
    cases a with
    | call t c =>
      obtain rfl := Option.some.inj h
      exact .call t c
    | swapFunctors =>
      obtain ⟨hbatch, rfl⟩ := Runs.guard_eq_some h
      exact .swapFunctors hbatch
    | runFunctor r cs =>
      cases hbatch : w.batch with
      | nil => simp [hbatch] at h
      | cons f fs =>
        simp only [hbatch] at h
        obtain rfl := Option.some.inj h
        exact .runFunctor r cs f fs hbatch
    | dispatch e r cs r' =>
      obtain ⟨⟨hinterest, hbatch⟩, rfl⟩ := Runs.guard_eq_some h
      exact .dispatch e r cs r' hinterest hbatch
    | connectionDestroyed =>
      obtain rfl := Option.some.inj h
      exact .connectionDestroyed
    | removeInLoop =>
      obtain ⟨hremovals, rfl⟩ := Runs.guard_eq_some h
      exact .removeInLoop hremovals

def established (initial : ℕ) : World :=
  World.connectionEstablished { input := ByteBuffer.new initial, output := ByteBuffer.new initial }

end TzzeroHttp.ConnectionModel
