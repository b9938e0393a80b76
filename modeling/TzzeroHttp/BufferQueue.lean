import TzzeroHttp.BufferModel
import TzzeroHttp.Runs

/-! The buffer is a byte queue. `Op` are the calls on a family of buffers, `step` what the
code does to the vectors and indices, `queueStep` what the calls mean. A buffer whose index
order is known is a `ByteBuffer`; its operations are total, and the parser and the
connection work on it. -/
namespace TzzeroHttp.BufferQueue
open ByteText BufferModel Runs

inductive Op (ι : Type*)
  | append (i : ι) (data : Bytes)
  | prepend (i : ι) (data : Bytes)
  | retrieve (i : ι) (len : ℕ)
  | retrieveAll (i : ι)
  | retrieveAsString (i : ι) (len : ℕ)
  | ensureWritableBytes (i : ι) (len : ℕ)
  | unwrite (i : ι) (len : ℕ)
  | readFd (i : ι) (result : ReadResult)
  | writeFd (i : ι) (result : WriteResult)
  | copy (target source : ι)
  | swap (i j : ι)
  deriving DecidableEq

variable {ι : Type*} [DecidableEq ι]

def step (s : ι → Buffer) : Op ι → Option (ι → Buffer)
  | .append i data => ((s i).append data).map (Function.update s i)
  | .prepend i data => ((s i).prepend data).map (Function.update s i)
  | .retrieve i len => some (Function.update s i ((s i).retrieve len))
  | .retrieveAll i => some (Function.update s i (s i).retrieveAll)
  | .retrieveAsString i len => some (Function.update s i ((s i).retrieveAsString len).2)
  | .ensureWritableBytes i len => ((s i).ensureWritableBytes len).map (Function.update s i)
  | .unwrite i len => some (Function.update s i ((s i).unwrite len))
  | .readFd i result => ((s i).readFd result).map (Function.update s i)
  | .writeFd i result => some (Function.update s i ((s i).writeFd result))
  | .copy i j => some (Function.update s i (s j))
  | .swap i j => some (Function.update (Function.update s i (s j)) j (s i))

/-- What callers and kernel keep to: no more is prepended than the reserved area holds, no
more taken back or read out than is readable, no more transferred than was offered. -/
def Allowed (s : ι → Buffer) : Op ι → Prop
  | .prepend i data => data.length ≤ (s i).prependableBytes
  | .retrieveAsString i len => len ≤ (s i).readableBytes
  | .unwrite i len => len ≤ (s i).readableBytes
  | .readFd i (.received data) => data.length ≤ (s i).offered
  | .writeFd i (.wrote n) => n ≤ (s i).readableBytes
  | _ => True

instance decidableAllowed (s : ι → Buffer) : ∀ op, Decidable (Allowed s op)
  | .append _ _ | .retrieve _ _ | .retrieveAll _ | .ensureWritableBytes _ _ | .copy _ _ | .swap _ _
  | .readFd _ (.failed _) | .writeFd _ (.failed _) => .isTrue trivial
  | .prepend _ _ | .retrieveAsString _ _ | .unwrite _ _ | .readFd _ (.received _)
  | .writeFd _ (.wrote _) => Nat.decLe _ _

/-- The abstract queues: bytes enter at either end and leave at the front. -/
def queueStep (q : ι → Bytes) : Op ι → ι → Bytes
  | .append i data => Function.update q i (q i ++ data)
  | .prepend i data => Function.update q i (data ++ q i)
  | .retrieve i len => Function.update q i ((q i).drop len)
  | .retrieveAll i => Function.update q i []
  | .retrieveAsString i len => Function.update q i ((q i).drop len)
  | .ensureWritableBytes _ _ => q
  | .unwrite i len => Function.update q i ((q i).take ((q i).length - len))
  | .readFd i (.received data) => Function.update q i (q i ++ data)
  | .readFd _ (.failed _) => q
  | .writeFd i (.wrote n) => Function.update q i ((q i).drop n)
  | .writeFd _ (.failed _) => q
  | .copy i j => Function.update q i (q j)
  | .swap i j => Function.update (Function.update q i (q j)) j (q i)

def Refines (s : ι → Buffer) (q : ι → Bytes) : Prop := ∀ i, (s i).Valid ∧ (s i).readable = q i

theorem refines_update {s : ι → Buffer} {q : ι → Bytes} (h : Refines s q) {i : ι} {b : Buffer}
    {d : Bytes} (hb : b.Valid) (hd : b.readable = d) :
    Refines (Function.update s i b) (Function.update q i d) := by
  intro j
  by_cases hj : j = i
  · subst hj
    simpa using ⟨hb, hd⟩
  · simpa [Function.update_of_ne hj] using h j

theorem refines_update_same {s : ι → Buffer} {q : ι → Bytes} (h : Refines s q) {i : ι} {b : Buffer}
    (hb : b.Valid) (hd : b.readable = q i) : Refines (Function.update s i b) q := by
  have hu := refines_update h (i := i) hb hd
  rwa [Function.update_eq_self] at hu

/-- One allowed call never leaves the vector and does to the queues what it means. -/
theorem step_refines {s : ι → Buffer} {q : ι → Bytes} (h : Refines s q) {op : Op ι}
    (hop : Allowed s op) : ∃ s', step s op = some s' ∧ Refines s' (queueStep q op) := by
  have hlen : ∀ i, (s i).readable.length = (s i).readableBytes := fun i => (h i).1.length_readable
  cases op with
  | append i data =>
    obtain ⟨b, hb, hv, hr⟩ := Buffer.append_spec (h i).1 data
    exact ⟨_, by rw [step, hb, Option.map_some], refines_update h hv (by rw [hr, (h i).2])⟩
  | prepend i data =>
    obtain ⟨b, hb, hv, hr⟩ := Buffer.prepend_spec (h i).1 hop
    exact ⟨_, by rw [step, hb, Option.map_some], refines_update h hv (by rw [hr, (h i).2])⟩
  | retrieve i len =>
    obtain ⟨hv, hr⟩ := Buffer.retrieve_spec (h i).1 len
    exact ⟨_, rfl, refines_update h hv (by rw [hr, (h i).2])⟩
  | retrieveAll i =>
    exact ⟨_, rfl, refines_update h (h i).1.retrieveAll (Buffer.retrieveAll_readable _)⟩
  | retrieveAsString i len =>
    obtain ⟨-, hv, hr⟩ := Buffer.retrieveAsString_spec (h i).1 (hop.trans (hlen i).ge)
    exact ⟨_, rfl, refines_update h hv (by rw [hr, (h i).2])⟩
  | ensureWritableBytes i len =>
    obtain ⟨b, hb, hv, hr, -⟩ := Buffer.ensureWritableBytes_spec (h i).1 len
    exact ⟨_, by rw [step, hb, Option.map_some], refines_update_same h hv (by rw [hr, (h i).2])⟩
  | unwrite i len =>
    obtain ⟨hv, hr⟩ := Buffer.unwrite_spec (h i).1 (hop.trans (hlen i).ge)
    exact ⟨_, rfl, refines_update h hv (by rw [hr, (h i).2])⟩
  | readFd i result =>
    cases result with
    | failed e => exact ⟨_, rfl, refines_update_same h (h i).1 (h i).2⟩
    | received data =>
      obtain ⟨b, hb, hv, hr⟩ := Buffer.readFd_spec (h i).1 data
      exact ⟨_, by rw [step, hb, Option.map_some], refines_update h hv (by rw [hr, (h i).2])⟩
  | writeFd i result =>
    cases result with
    | failed e => exact ⟨_, rfl, refines_update_same h (h i).1 (h i).2⟩
    | wrote n =>
      obtain ⟨hv, hr⟩ := Buffer.retrieve_spec (h i).1 n
      exact ⟨_, rfl, refines_update h hv (by rw [Buffer.writeFd, hr, (h i).2])⟩
  | copy i j => exact ⟨_, rfl, refines_update h (h j).1 (h j).2⟩
  | swap i j =>
    exact ⟨_, rfl, refines_update (refines_update h (h j).1 (h j).2) (h i).1 (h i).2⟩

theorem run_refines {ops : List (Op ι)} {s : ι → Buffer} {q : ι → Bytes} (h : Refines s q)
    (hops : Guarded step Allowed s ops) :
    ∃ s', run step s ops = some s' ∧ Refines s' (ops.foldl queueStep q) := by
  induction ops generalizing s q with
  | nil => exact ⟨s, rfl, h⟩
  | cons op ops ih =>
    obtain ⟨s₁, h₁, href⟩ := step_refines h hops.1
    obtain ⟨s₂, h₂, href'⟩ := ih href (hops.2 s₁ h₁)
    exact ⟨s₂, run_cons.mpr ⟨s₁, h₁, h₂⟩, href'⟩

omit [DecidableEq ι] in
theorem new_refines (initial : ι → ℕ) :
    Refines (fun i => Buffer.new (initial i)) (fun _ => []) :=
  fun i => ⟨Buffer.new_valid (initial i), Buffer.new_readable (initial i)⟩

/-- The buffers refine byte queues: for all initial sizes and every sequence of allowed calls,
no byte is read or stored outside a vector, the indices keep their order, and the readable
bytes are those of the queues; in particular what `retrieve_as_string` would hand out is the
front of the queue. -/
theorem buffer_refines_queue (initial : ι → ℕ) (ops : List (Op ι))
    (hops : Guarded step Allowed (fun i => Buffer.new (initial i)) ops) :
    ∃ s, run step (fun i => Buffer.new (initial i)) ops = some s ∧ ∀ i,
      (s i).readIndex ≤ (s i).writeIndex ∧ (s i).writeIndex ≤ (s i).buffer.length ∧
      (s i).readable = ops.foldl queueStep (fun _ => []) i ∧
      ∀ len ≤ (s i).readableBytes,
        ((s i).retrieveAsString len).1 = (ops.foldl queueStep (fun _ => []) i).take len := by
  obtain ⟨s, hs, href⟩ := run_refines (new_refines initial) hops
  refine ⟨s, hs, fun i => ⟨(href i).1.read_le, (href i).1.write_le, (href i).2, ?_⟩⟩
  intro len hlen
  have hl := (href i).1.length_readable
  rw [(Buffer.retrieveAsString_spec (href i).1 (hlen.trans hl.ge)).1, (href i).2]

/-- A run with a spill through `extrabuf` that moves the data to the front, then a partial
write, growth, a copy and a swap. -/
theorem buffer_refines_queue_mixed :
    let ops : List (Op Bool) := [.append true [1, 2, 3, 4], .prepend true [0], .retrieve true 4,
      .append true [5, 6], .readFd true (.received [7, 8, 9]), .readFd true (.failed .interrupted),
      .writeFd true (.wrote 2), .unwrite true 1, .ensureWritableBytes true 9, .copy false true,
      .retrieveAsString false 1, .swap false true]
    Guarded step Allowed (fun _ => Buffer.new 6) ops ∧
      ∃ s, run step (fun _ => Buffer.new 6) ops = some s ∧ (s true).readable = [7, 8] ∧
        (s false).readable = [6, 7, 8] := by
  intro ops
  have hops : Guarded step Allowed (fun _ => Buffer.new 6) ops := by decide
  obtain ⟨s, hs, hi⟩ := buffer_refines_queue (fun _ => 6) ops hops
  exact ⟨hops, s, hs, (hi true).2.2.1.trans (by decide), (hi false).2.2.1.trans (by decide)⟩

/-- A buffer in order. The code never moves from the buffers of a connection, so these are
the ones that its parser and its output path see. -/
structure ByteBuffer where
  raw : Buffer
  valid : raw.Valid

namespace ByteBuffer

def new (initial : ℕ) : ByteBuffer := ⟨Buffer.new initial, Buffer.new_valid initial⟩
def readable (b : ByteBuffer) : Bytes := b.raw.readable
def readableBytes (b : ByteBuffer) : ℕ := b.raw.readableBytes
def findCrlf (b : ByteBuffer) : Option ℕ := b.raw.findCrlf
def peekString (b : ByteBuffer) (len : ℕ) : Bytes := b.raw.peekString len
def retrieve (b : ByteBuffer) (len : ℕ) : ByteBuffer :=
  ⟨b.raw.retrieve len, (Buffer.retrieve_spec b.valid len).1⟩
def retrieveAll (b : ByteBuffer) : ByteBuffer := ⟨b.raw.retrieveAll, b.valid.retrieveAll⟩
def retrieveAsString (b : ByteBuffer) (len : ℕ) : Bytes × ByteBuffer :=
  (b.peekString len, b.retrieve len)

theorem append_isSome (b : ByteBuffer) (data : Bytes) : (b.raw.append data).isSome := by
  obtain ⟨b', hb, -⟩ := Buffer.append_spec b.valid data
  simp [hb]

theorem get_append (b : ByteBuffer) (data : Bytes) :
    ((b.raw.append data).get (b.append_isSome data)).Valid ∧
      ((b.raw.append data).get (b.append_isSome data)).readable = b.readable ++ data := by
  obtain ⟨b', hb, hv, hr⟩ := Buffer.append_spec b.valid data
  simp only [hb, Option.get_some]
  exact ⟨hv, hr⟩

def append (b : ByteBuffer) (data : Bytes) : ByteBuffer :=
  ⟨(b.raw.append data).get (b.append_isSome data), (b.get_append data).1⟩

theorem readFd_isSome (b : ByteBuffer) (result : ReadResult) : (b.raw.readFd result).isSome := by
  cases result with
  | failed e => rfl
  | received data =>
    obtain ⟨b', hb, -⟩ := Buffer.readFd_spec b.valid data
    simp [hb]

theorem get_readFd (b : ByteBuffer) (data : Bytes) :
    ((b.raw.readFd (.received data)).get (b.readFd_isSome _)).Valid ∧
      ((b.raw.readFd (.received data)).get (b.readFd_isSome _)).readable = b.readable ++ data := by
  obtain ⟨b', hb, hv, hr⟩ := Buffer.readFd_spec b.valid data
  simp only [hb, Option.get_some]
  exact ⟨hv, hr⟩

def readFd (b : ByteBuffer) : ReadResult → ByteBuffer
  | .failed _ => b
  | .received data => ⟨(b.raw.readFd (.received data)).get (b.readFd_isSome _), (b.get_readFd data).1⟩

def writeFd (b : ByteBuffer) : WriteResult → ByteBuffer
  | .failed _ => b
  | .wrote n => b.retrieve n

@[simp] theorem readable_new (initial : ℕ) : (new initial).readable = [] :=
  Buffer.new_readable initial

@[simp] theorem readable_retrieve (b : ByteBuffer) (len : ℕ) :
    (b.retrieve len).readable = b.readable.drop len := (Buffer.retrieve_spec b.valid len).2

@[simp] theorem readable_retrieveAll (b : ByteBuffer) : b.retrieveAll.readable = [] :=
  Buffer.retrieveAll_readable _

@[simp] theorem readable_append (b : ByteBuffer) (data : Bytes) :
    (b.append data).readable = b.readable ++ data := (b.get_append data).2

@[simp] theorem readable_readFd (b : ByteBuffer) (data : Bytes) :
    (b.readFd (.received data)).readable = b.readable ++ data := (b.get_readFd data).2

@[simp] theorem readableBytes_eq (b : ByteBuffer) : b.readableBytes = b.readable.length :=
  b.valid.length_readable.symm

theorem findCrlf_eq (b : ByteBuffer) : b.findCrlf = ListSearch.search crlf b.readable :=
  b.valid.findCrlf_eq

theorem peekString_eq (b : ByteBuffer) {len : ℕ} (h : len ≤ b.readable.length) :
    b.peekString len = b.readable.take len := b.valid.peekString_eq h

end ByteBuffer

end TzzeroHttp.BufferQueue
