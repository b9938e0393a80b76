import TzzeroHttp.ConnectionClose
import TzzeroHttp.ConnectionInterest
import TzzeroHttp.ConnectionOutput

/-! `send(Buffer&)`. From another thread it queues a functor that holds a reference to the
caller's buffer and reads and empties it when it runs, where `send(const std::string&)` queues
a copy. So the two agree as long as the buffer is at that moment what it was at the call. -/
namespace TzzeroHttp.ConnectionBufferSend
open ByteText BufferModel ConnectionModel Runs
open BufferQueue (ByteBuffer)
open ConnectionInterest (Synced Advance)
open ConnectionOutput (Harmless traffic)

/-- A functor's reference to a buffer. `message` and `removedBefore` record what was readable in
it at the call, and how many bytes had been taken out of it until then. -/
structure Ticket (ι : Type*) where
  thread : ThreadId
  buffer : ι
  message : Bytes
  removedBefore : ℕ
  deriving DecidableEq

inductive Task (ι : Type*)
  | own (f : Functor)
  | sendBuffer (ticket : Ticket ι)
  deriving DecidableEq

/-- A connection, the functor queue of its loop, and the callers' buffers; `removed` counts the
bytes ever taken out of each. -/
structure Shared (ι : Type*) where
  conn : World
  pending : List (Task ι) := []
  batch : List (Task ι) := []
  buffers : ι → ByteBuffer
  removed : ι → ℕ := fun _ => 0

variable {ι : Type*} [DecidableEq ι]

namespace Shared

def withConn (w : World) (s : Shared ι) : Shared ι :=
  { s with conn := { w with pending := [] }, pending := s.pending ++ w.pending.map .own }

def append (i : ι) (data : Bytes) (s : Shared ι) : Shared ι :=
  { s with buffers := Function.update s.buffers i ((s.buffers i).append data) }

def retrieve (i : ι) (len : ℕ) (s : Shared ι) : Shared ι :=
  { s with
    buffers := Function.update s.buffers i ((s.buffers i).retrieve len)
    removed := Function.update s.removed i (s.removed i + min len (s.buffers i).readableBytes) }

def retrieveAll (i : ι) (s : Shared ι) : Shared ι :=
  { s with
    buffers := Function.update s.buffers i (s.buffers i).retrieveAll
    removed := Function.update s.removed i (s.removed i + (s.buffers i).readableBytes) }

/-- The two statements that send a buffer in the loop; an exception out of the first skips the
second. -/
def sendBufferInLoop (cfg : Config) (t : ThreadId) (i : ι) (result : WriteResult) (s : Shared ι) :
    Shared ι :=
  let s := s.withConn (s.conn.sendInLoop cfg t (s.buffers i).readable result)
  if s.conn.thrown.isSome then s else s.retrieveAll i

def sendBuffer (cfg : Config) (t : ThreadId) (i : ι) (result : WriteResult) (s : Shared ι) :
    Shared ι :=
  if s.conn.state = .connected then
    let message := (s.buffers i).readable
    let s := { s with conn := { s.conn with issued := s.conn.issued ++ [(t, message)] } }
    if t = cfg.loopThread then s.sendBufferInLoop cfg t i result
    else { s with pending := s.pending ++ [.sendBuffer ⟨t, i, message, s.removed i⟩] }
  else s

def rest (s : Shared ι) (ticket : Ticket ι) : Bytes :=
  ticket.message.drop (s.removed ticket.buffer - ticket.removedBefore)

end Shared

/-- The callers' operations, the moves of the connection, whose own queue stays empty, and those
of the loop's queue. -/
inductive Act (ι : Type*)
  | append (i : ι) (data : Bytes)
  | retrieve (i : ι) (len : ℕ)
  | sendBuffer (thread : ThreadId) (i : ι) (result : WriteResult)
  | connection (a : ConnectionModel.Act)
  | swapFunctors
  | runFunctor (result : WriteResult) (calls : List Call)
  deriving DecidableEq

/-- Events are dispatched between two batches of functors. -/
def MayMove (s : Shared ι) : ConnectionModel.Act → Bool
  | .dispatch _ _ _ _ => s.batch.isEmpty
  | _ => true

def step (cfg : Config) (s : Shared ι) (a : Act ι) : Option (Shared ι) :=
  if s.conn.thrown.isSome then none
  else match a with
    | .append i data => some (s.append i data)
    | .retrieve i len => some (s.retrieve i len)
    | .sendBuffer t i result => some (s.sendBuffer cfg t i result)
    | .connection a =>
      if MayMove s a then (ConnectionModel.step cfg s.conn a).map s.withConn else none
    | .swapFunctors => if s.batch = [] then some { s with batch := s.pending, pending := [] } else none
    | .runFunctor result calls =>
      match s.batch with
      | [] => none
      | .own f :: fs =>
        some ({ s with batch := fs }.withConn (s.conn.runFunctor cfg result calls f))
      | .sendBuffer tk :: fs =>
        some ({ s with batch := fs }.sendBufferInLoop cfg tk.thread tk.buffer result)

/-- The reference and the answer of `write` when the move runs the functor of a `send(Buffer&)`
on a CONNECTED connection. -/
def bufferSend (s : Shared ι) : Act ι → Option (Ticket ι × WriteResult)
  | .runFunctor result _ =>
    match s.batch with
    | .sendBuffer tk :: _ => if s.conn.state = .connected then some (tk, result) else none
    | _ => none
  | _ => none

/-- The functor has done what the one of `send(b.to_string())`, called in place of `send(b)`,
would do: the bytes of the call are on the output stream, which only a write that drops a message
prevents. And what was appended to the buffer since is all that it still holds. -/
structure Agrees (cfg : Config) (s : Shared ι) (tk : Ticket ι) (result : WriteResult)
    (s' : Shared ι) : Prop where
  conn : s'.conn =
    (s.withConn (s.conn.runFunctor cfg result [] (.sendInLoop tk.thread tk.message))).conn
  pending : s'.pending =
    (s.withConn (s.conn.runFunctor cfg result [] (.sendInLoop tk.thread tk.message))).pending
  stream : Harmless result → (traffic s'.conn).stream = (traffic s.conn).stream ++ tk.message
  buffer : (s'.buffers tk.buffer).readable =
    (s.buffers tk.buffer).readable.drop (s.rest tk).length

/-- The move sends a buffer as it was at the call, or does not send a buffer. -/
def Delivers (cfg : Config) (s : Shared ι) (a : Act ι) : Prop :=
  ∀ x ∈ bufferSend s a, ∀ s' ∈ step cfg s a, Agrees cfg s x.1 x.2 s'

def Untouched (s : Shared ι) (a : Act ι) : Prop :=
  ∀ x ∈ bufferSend s a, s.rest x.1 = x.1.message ∧ (s.buffers x.1.buffer).readable = s.rest x.1

instance (s : Shared ι) (a : Act ι) : Decidable (Untouched s a) :=
  inferInstanceAs (Decidable (∀ x ∈ bufferSend s a,
    s.rest x.1 = x.1.message ∧ (s.buffers x.1.buffer).readable = s.rest x.1))

structure Accounted (s : Shared ι) (tk : Ticket ι) : Prop where
  front : s.rest tk <+: (s.buffers tk.buffer).readable
  before : tk.removedBefore ≤ s.removed tk.buffer

/-- The queued references are accounted for, and connection and poller in step. -/
structure Inv (s : Shared ι) : Prop where
  synced : s.conn.thrown = none → Synced s.conn
  accounted : ∀ tk, .sendBuffer tk ∈ s.batch ++ s.pending → Accounted s tk

variable {cfg : Config} {s s' : Shared ι} {tk : Ticket ι}

omit [DecidableEq ι] in
theorem Accounted.drop (h : Accounted s tk) (k : ℕ)
    (hbuffer : (s'.buffers tk.buffer).readable = (s.buffers tk.buffer).readable.drop k)
    (hremoved : s'.removed tk.buffer = s.removed tk.buffer + k) : Accounted s' tk where
  front := by
    have hrest : s'.rest tk = (s.rest tk).drop k := by
      have hbefore := h.before
      simp only [Shared.rest, List.drop_drop, hremoved]
      congr 1
      omega
    rw [hrest, hbuffer]
    exact h.front.drop k
  before := by
    have hbefore := h.before
    omega

omit [DecidableEq ι] in
theorem Accounted.append (h : Accounted s tk) (data : Bytes)
    (hbuffer : (s'.buffers tk.buffer).readable = (s.buffers tk.buffer).readable ++ data)
    (hremoved : s'.removed tk.buffer = s.removed tk.buffer) : Accounted s' tk where
  front := by
    have hrest : s'.rest tk = s.rest tk := by simp only [Shared.rest, hremoved]
    rw [hrest, hbuffer]
    exact h.front.trans (List.prefix_append _ _)
  before := hremoved ▸ h.before

theorem accounted_append (h : Accounted s tk) (i : ι) (data : Bytes) : Accounted (s.append i data) tk := by
  by_cases hi : tk.buffer = i
  · subst hi
    exact h.append data (by simp [Shared.append]) rfl
  · exact h.append [] (by simp [Shared.append, Function.update_of_ne hi]) rfl

theorem accounted_retrieve (h : Accounted s tk) (i : ι) (len : ℕ) : Accounted (s.retrieve i len) tk := by
  by_cases hi : tk.buffer = i
  · subst hi
    refine h.drop (min len (s.buffers tk.buffer).readableBytes) ?_ (by simp [Shared.retrieve])
    simp [Shared.retrieve, List.drop_eq_drop_iff]
  · exact h.drop 0 (by simp [Shared.retrieve, Function.update_of_ne hi])
      (by simp [Shared.retrieve, Function.update_of_ne hi])

theorem accounted_retrieveAll (h : Accounted s tk) (i : ι) : Accounted (s.retrieveAll i) tk := by
  by_cases hi : tk.buffer = i
  · subst hi
    exact h.drop (s.buffers tk.buffer).readableBytes (by simp [Shared.retrieveAll])
      (by simp [Shared.retrieveAll])
  · exact h.drop 0 (by simp [Shared.retrieveAll, Function.update_of_ne hi])
      (by simp [Shared.retrieveAll, Function.update_of_ne hi])

omit [DecidableEq ι] in
theorem Inv.same (h : Inv s) (hbuffers : s'.buffers = s.buffers) (hremoved : s'.removed = s.removed)
    (htickets : ∀ tk, .sendBuffer tk ∈ s'.batch ++ s'.pending → .sendBuffer tk ∈ s.batch ++ s.pending)
    (hsynced : s'.conn.thrown = none → Synced s'.conn) : Inv s' where
  synced := hsynced
  accounted tk htk :=
    (h.accounted tk (htickets tk htk)).append [] (by simp [hbuffers]) (by rw [hremoved])

omit [DecidableEq ι] in
theorem Inv.withConn (h : Inv s) {w : World} (ha : Advance s.conn w) : Inv (s.withConn w) := by
  refine h.same rfl rfl (fun tk htk => by simpa [Shared.withConn] using htk) fun hthrown => ?_
  have hw : Synced w := ha.synced hthrown (h.synced (ha.sticky hthrown))
  exact ⟨hw.registered, hw.wanted⟩

theorem Inv.retrieveAll (h : Inv s) (i : ι) : Inv (s.retrieveAll i) where
  synced := h.synced
  accounted tk htk := accounted_retrieveAll (h.accounted tk htk) i

theorem Inv.sendBufferInLoop (h : Inv s) (t : ThreadId) (i : ι) (r : WriteResult) :
    Inv (s.sendBufferInLoop cfg t i r) := by
  have hadvance : Advance s.conn (s.conn.sendInLoop cfg t (s.buffers i).readable r) :=
    ConnectionInterest.advance_sendInLoop t (s.buffers i).readable r
  have hsent := h.withConn hadvance
  unfold Shared.sendBufferInLoop
  simp only
  split_ifs
  · exact hsent
  · exact hsent.retrieveAll i

omit [DecidableEq ι] in
theorem Inv.pop (h : Inv s) {f : Task ι} {fs : List (Task ι)} (hbatch : s.batch = f :: fs) :
    Inv { s with batch := fs } := by
  refine h.same rfl rfl (fun tk htk => ?_) h.synced
  rw [hbatch]
  exact List.mem_cons_of_mem f htk

theorem Inv.sendBuffer (h : Inv s) (t : ThreadId) (i : ι) (r : WriteResult) :
    Inv (s.sendBuffer cfg t i r) := by
  have hissued : ∀ x, Inv { s with conn := { s.conn with issued := x } } := by
    intro x
    refine h.same rfl rfl (fun tk htk => htk) fun hthrown => ?_
    exact ⟨(h.synced hthrown).registered, (h.synced hthrown).wanted⟩
  unfold Shared.sendBuffer
  simp only
  split_ifs
  · exact (hissued _).sendBufferInLoop t i r
  · refine ⟨(hissued _).synced, fun tk htk => ?_⟩
    have hcases : .sendBuffer tk ∈ s.batch ++ s.pending ∨
        tk = ⟨t, i, (s.buffers i).readable, s.removed i⟩ := by
      simpa [or_assoc] using htk
    rcases hcases with hold | rfl
    · exact (h.accounted tk hold).append [] (by simp) rfl
    · exact ⟨by simp [Shared.rest], le_rfl⟩
  · exact h

theorem step_inv {a : Act ι} (h : Inv s) (hstep : step cfg s a = some s') : Inv s' := by
  unfold step at hstep
  by_cases hthrown : s.conn.thrown.isSome
  · simp [hthrown] at hstep
  · rw [if_neg hthrown] at hstep
    cases a with
    | append i data =>
      obtain rfl := Option.some.inj hstep
      exact ⟨h.synced, fun tk htk => accounted_append (h.accounted tk htk) i data⟩
    | retrieve i len =>
      obtain rfl := Option.some.inj hstep
      exact ⟨h.synced, fun tk htk => accounted_retrieve (h.accounted tk htk) i len⟩
    | sendBuffer t i r =>
      obtain rfl := Option.some.inj hstep
      exact h.sendBuffer t i r
    | connection a =>
      simp only at hstep
      split_ifs at hstep
      obtain ⟨w, hw, rfl⟩ := Option.map_eq_some_iff.mp hstep
      exact h.withConn (ConnectionInterest.advance_move (step_move hw).2)
    | swapFunctors =>
      obtain ⟨hbatch, rfl⟩ := guard_eq_some hstep
      exact h.same rfl rfl (fun tk htk => by simpa [hbatch] using htk) h.synced
    | runFunctor r cs =>
      simp only at hstep
      split at hstep
      · cases hstep
      · next f fs hbatch =>
        obtain rfl := Option.some.inj hstep
        exact (h.pop hbatch).withConn (ConnectionInterest.advance_runFunctor r cs f)
      · next tk fs hbatch =>
        obtain rfl := Option.some.inj hstep
        exact (h.pop hbatch).sendBufferInLoop tk.thread tk.buffer r

omit [DecidableEq ι] in
theorem bufferSend_eq {a : Act ι} {r : WriteResult} (h : bufferSend s a = some (tk, r)) :
    s.conn.state = .connected ∧ ∃ cs fs, a = .runFunctor r cs ∧ s.batch = .sendBuffer tk :: fs := by
  cases a with
  | runFunctor r' cs =>
    simp only [bufferSend] at h
    split at h
    · next tk' fs hbatch =>
      obtain ⟨hstate, heq⟩ := guard_eq_some h
      obtain ⟨rfl, rfl⟩ := Prod.mk.inj heq
      exact ⟨hstate, cs, fs, rfl, hbatch⟩
    · cases h
  | _ => cases h

theorem sendInLoop_thrown {w : World} (hreg : w.interest.isSome = true) (t : ThreadId) (m : Bytes)
    (r : WriteResult) : (w.sendInLoop cfg t m r).thrown = w.thrown := by
  rcases (ConnectionClose.keeps_sending.sendInLoop cfg w t m r).thrown with h | ⟨hnone, -⟩
  · exact h
  · rw [hreg] at hnone
    cases hnone

theorem sendInLoop_executed (w : World) (t : ThreadId) (m : Bytes) (r : WriteResult) :
    (w.sendInLoop cfg t m r).executed = w.executed ++ [(t, m)] := by
  have hremaining : ∀ (v : World) data, (v.bufferRemaining cfg data).executed = v.executed := fun v data =>
    congrArg ConnectionOutput.Traffic.executed (ConnectionOutput.traffic_bufferRemaining data)
  unfold World.sendInLoop
  simp only
  split_ifs
  · cases r with
    | wrote n =>
      simp only [hremaining]
      split_ifs <;> rfl
    | failed e =>
      simp only
      split_ifs
      · rfl
      · exact hremaining _ m
  · exact hremaining _ m

/-- What the functor does: it sends what the buffer holds now, and empties it. -/
theorem step_bufferSend {a : Act ι} {r : WriteResult} (h : Inv s) (hsend : bufferSend s a = some (tk, r))
    (hstep : step cfg s a = some s') :
    s' = ({ s with batch := s.batch.tail }.withConn (s.conn.sendInLoop cfg tk.thread
      (s.buffers tk.buffer).readable r)).retrieveAll tk.buffer := by
  obtain ⟨hstate, cs, fs, rfl, hbatch⟩ := bufferSend_eq hsend
  unfold step at hstep
  by_cases hthrown : s.conn.thrown.isSome
  · simp [hthrown] at hstep
  · rw [if_neg hthrown] at hstep
    simp only [hbatch] at hstep
    obtain rfl := Option.some.inj hstep
    have hnone : s.conn.thrown = none := by simpa using hthrown
    have hreg : s.conn.interest.isSome = true := (h.synced hnone).registered.mpr (.inl hstate)
    simp [Shared.sendBufferInLoop, Shared.withConn, sendInLoop_thrown hreg, hnone, hbatch]

theorem agrees_iff {a : Act ι} {r : WriteResult} (h : Inv s) (hsend : bufferSend s a = some (tk, r))
    (hstep : step cfg s a = some s') :
    Agrees cfg s tk r s' ↔ s.rest tk = tk.message ∧ (s.buffers tk.buffer).readable = s.rest tk := by
  obtain rfl := step_bufferSend h hsend hstep
  obtain ⟨hstate, cs, fs, rfl, hbatch⟩ := bufferSend_eq hsend
  have hacc := h.accounted tk (by simp [hbatch])
  constructor
  · intro hagrees
    -- a write may drop both messages; the record of executed sends still tells them apart
    have hmessage : (s.buffers tk.buffer).readable = tk.message := by
      have hlog := congrArg World.executed hagrees.conn
      simpa [Shared.retrieveAll, Shared.withConn, World.runFunctor, sendInLoop_executed] using hlog
    have hlen : (s.buffers tk.buffer).readable.length ≤ (s.rest tk).length := by
      have hbuffer := hagrees.buffer
      simpa [Shared.retrieveAll, List.drop_eq_nil_iff] using hbuffer
    have hrest := hacc.front.eq_of_length_le hlen
    exact ⟨hrest.trans hmessage, hrest.symm⟩
  · rintro ⟨hrest, hbuffer⟩
    have hmessage := hbuffer.trans hrest
    refine ⟨?_, ?_, fun hr => ?_, ?_⟩
    · simp [Shared.retrieveAll, Shared.withConn, World.runFunctor, hmessage]
    · simp [Shared.retrieveAll, Shared.withConn, World.runFunctor, hmessage]
    · rw [hmessage]
      exact congrArg ConnectionOutput.Traffic.stream
        (ConnectionOutput.traffic_sendInLoop tk.thread tk.message hr)
    · simp [Shared.retrieveAll, ← hbuffer]

theorem delivers_iff {a : Act ι} (h : Inv s) (hstep : step cfg s a = some s') :
    Delivers cfg s a ↔ Untouched s a := by
  constructor
  · intro hdelivers x hx
    exact (agrees_iff h hx hstep).mp (hdelivers x hx s' hstep)
  · intro huntouched x hx v hv
    exact (agrees_iff h hx hv).mpr (huntouched x hx)

def start (initial : ℕ) (buffers : ι → ByteBuffer) : Shared ι :=
  { conn := established initial, buffers := buffers }

omit [DecidableEq ι] in
theorem start_inv (initial : ℕ) (buffers : ι → ByteBuffer) : Inv (start initial buffers) :=
  ⟨fun _ => ConnectionInterest.established_synced initial, fun _ htk => absurd htk List.not_mem_nil⟩

/-- Over every interleaving of callers and loop: each functor of a `send(Buffer&)` that runs on a
CONNECTED connection agrees with the functor of `send(b.to_string())` exactly when each such
functor finds in its buffer what was there at the call. -/
theorem buffer_sends_agree_iff (cfg : Config) (initial : ℕ) (buffers : ι → ByteBuffer)
    (acts : List (Act ι)) (s : Shared ι) (hrun : run (step cfg) (start initial buffers) acts = some s) :
    Guarded (step cfg) (Delivers cfg) (start initial buffers) acts ↔
      Guarded (step cfg) Untouched (start initial buffers) acts :=
  guarded_iff (fun _ _ _ => step_inv) (fun _ _ _ => delivers_iff) (start_inv initial buffers) hrun

/-- The caller waits for the functor before it uses the buffer again; another thread's message
goes out in between. -/
theorem buffer_sends_agree_waiting :
    let acts : List (Act Unit) := [.append () [1, 2], .sendBuffer 1 () (.wrote 0),
      .connection (.call 2 (.send [9] (.wrote 0))), .swapFunctors, .runFunctor (.wrote 1) [],
      .append () [3], .sendBuffer 1 () (.wrote 0), .runFunctor (.wrote 0) [], .swapFunctors,
      .runFunctor (.failed .wouldBlock) []]
    Guarded (step {}) (Delivers {}) (start 64 fun _ => ByteBuffer.new 4) acts := by
  intro acts
  have hruns : (run (step {}) (start 64 fun _ => ByteBuffer.new 4) acts).isSome := by decide
  obtain ⟨s, hs⟩ := Option.isSome_iff_exists.mp hruns
  exact (buffer_sends_agree_iff {} 64 _ acts s hs).mpr (by decide)

/-- The caller appends a byte before the functor runs: it goes out too, and is no longer in the
buffer. -/
theorem appended_byte_sent :
    ¬ ∀ (cfg : Config) (initial : ℕ) (buffers : Unit → ByteBuffer) (acts : List (Act Unit))
      (s : Shared Unit), run (step cfg) (start initial buffers) acts = some s →
        s.conn.state = .connected →
        Guarded (step cfg) (Delivers cfg) (start initial buffers) acts := by
  intro h
  let before : List (Act Unit) := [.append () [1], .sendBuffer 1 () (.wrote 0), .append () [2],
    .swapFunctors]
  let last : Act Unit := .runFunctor (.wrote 2) []
  let fresh := start 64 fun _ : Unit => ByteBuffer.new 4
  have hcall : (run (step {}) fresh before).map (fun s => (bufferSend s last, (traffic s.conn).stream)) =
      some (some (⟨1, (), [1], 0⟩, .wrote 2), []) := by decide
  have hend : (run (step {}) fresh (before ++ [last])).map
      (fun s => (s.conn.state, (traffic s.conn).stream)) = some (.connected, [1, 2]) := by decide
  obtain ⟨s', hs', hsent⟩ := Option.map_eq_some_iff.mp hend
  obtain ⟨hstate, hstream⟩ := Prod.mk.inj hsent
  obtain ⟨s, hs, hlast⟩ := run_append.mp hs'
  obtain ⟨v, hstep, hv⟩ := run_cons.mp hlast
  obtain rfl := Option.some.inj hv
  rw [hs] at hcall
  obtain ⟨hticket, hempty⟩ := Prod.mk.inj (Option.some.inj hcall)
  have hguard := h {} 64 (fun _ => ByteBuffer.new 4) (before ++ [last]) v hs' hstate
  have hdelivers := ((guarded_append hs).mp hguard).2.1
  have hagrees := hdelivers _ hticket v hstep
  have hone := hagrees.stream (by simp [Harmless])
  rw [hstream, hempty] at hone
  simp at hone

end TzzeroHttp.ConnectionBufferSend
