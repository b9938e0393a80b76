import TzzeroHttp.ByteText
import TzzeroHttp.ListBlock
import TzzeroHttp.ListSearch

/-! The network buffer: a vector with a read and a write index and a reserved area in
front. Sizes are exact naturals; the wrap of `size_t` is kept in subtraction, the one
place where a buffer of ordinary size can meet it. A store outside the vector is
undefined behaviour in the source and the value `none` here. -/
namespace TzzeroHttp.BufferModel
open ByteText ListBlock ListSearch

def cheapPrepend : ℕ := 8

def initialSize : ℕ := 1024

/-- `sizeof(extrabuf)` in `read_fd`. -/
def extraSize : ℕ := 65536

/-- Subtraction of `size_t`. -/
def sizeSub (a b : ℕ) : ℕ := if b ≤ a then a - b else 2 ^ 64 + a - b

/-- The `errno` values the program tells apart. -/
inductive Errno
  | wouldBlock
  | interrupted
  | brokenPipe
  | connectionReset
  | other (code : ℕ)
  deriving DecidableEq, Repr

inductive ReadResult
  | failed (error : Errno)
  | received (data : Bytes)
  deriving DecidableEq, Repr

inductive WriteResult
  | failed (error : Errno)
  | wrote (count : ℕ)
  deriving DecidableEq, Repr

structure Buffer where
  buffer : List UInt8
  readIndex : ℕ
  writeIndex : ℕ
  deriving DecidableEq, Repr

namespace Buffer

def new (initial : ℕ) : Buffer :=
  ⟨List.replicate (cheapPrepend + initial) 0, cheapPrepend, cheapPrepend⟩

def readableBytes (b : Buffer) : ℕ := sizeSub b.writeIndex b.readIndex
def writableBytes (b : Buffer) : ℕ := sizeSub b.buffer.length b.writeIndex
def prependableBytes (b : Buffer) : ℕ := b.readIndex
def capacity (b : Buffer) : ℕ := b.buffer.length

def peekString (b : Buffer) (len : ℕ) : Bytes := (b.buffer.drop b.readIndex).take len

def retrieveAll (b : Buffer) : Buffer :=
  { b with readIndex := cheapPrepend, writeIndex := cheapPrepend }

def retrieve (b : Buffer) (len : ℕ) : Buffer :=
  if len < b.readableBytes then { b with readIndex := b.readIndex + len } else b.retrieveAll

def retrieveAsString (b : Buffer) (len : ℕ) : Bytes × Buffer :=
  (b.peekString len, b.retrieve len)

def hasWritten (b : Buffer) (len : ℕ) : Buffer := { b with writeIndex := b.writeIndex + len }
def unwrite (b : Buffer) (len : ℕ) : Buffer := { b with writeIndex := sizeSub b.writeIndex len }

/-- Grow, or move the readable bytes to the front of the vector. -/
def makeSpace (b : Buffer) (len : ℕ) : Option Buffer :=
  if b.writableBytes + b.prependableBytes < len + cheapPrepend then
    some { b with buffer := resize 0 b.buffer (b.writeIndex + len) }
  else
    let readable := b.readableBytes
    (copyForward (b.writeIndex - b.readIndex) b.buffer b.readIndex cheapPrepend).map fun v =>
      ⟨v, cheapPrepend, cheapPrepend + readable⟩

def ensureWritableBytes (b : Buffer) (len : ℕ) : Option Buffer :=
  if b.writableBytes < len then b.makeSpace len else some b

def append (b : Buffer) (data : Bytes) : Option Buffer :=
  (b.ensureWritableBytes data.length).bind fun b =>
    (blit b.buffer b.writeIndex data).map fun v => { b with buffer := v }.hasWritten data.length

def prepend (b : Buffer) (data : Bytes) : Option Buffer :=
  let readIndex := sizeSub b.readIndex data.length
  (blit b.buffer readIndex data).map fun v => { b with buffer := v, readIndex := readIndex }

/-- Total length of the iovecs that `read_fd` offers. -/
def offered (b : Buffer) : ℕ :=
  if b.writableBytes < extraSize then b.writableBytes + extraSize else b.writableBytes

/-- `read_fd`: the kernel fills the writable part of the vector first and `extrabuf` after it;
what landed in `extrabuf` is appended. The returned count is the length of the data. -/
def readFd (b : Buffer) : ReadResult → Option Buffer
  | .failed _ => some b
  | .received data =>
    let writable := b.writableBytes
    (blit b.buffer b.writeIndex (data.take writable)).bind fun v =>
      let b := { b with buffer := v }
      if data.length ≤ writable then some (b.hasWritten data.length)
      else { b with writeIndex := b.buffer.length }.append (data.drop writable)

def writeFd (b : Buffer) : WriteResult → Buffer
  | .failed _ => b
  | .wrote n => b.retrieve n

/-- Offset from `peek()` of the first CR LF, found by `std::search` up to `begin_write()`. -/
def findCrlf (b : Buffer) : Option ℕ := search crlf (b.peekString b.readableBytes)

def toBytes (b : Buffer) : Bytes := b.peekString b.readableBytes

/-- The index order that every operation relies on. The reserved area is part of it:
`retrieve_all` sets both indices to `kCheapPrepend` without looking at the vector. -/
structure Valid (b : Buffer) : Prop where
  reserved : cheapPrepend ≤ b.buffer.length
  read_le : b.readIndex ≤ b.writeIndex
  write_le : b.writeIndex ≤ b.buffer.length

def readable (b : Buffer) : Bytes := window b.buffer b.readIndex b.writeIndex

variable {b : Buffer}

theorem new_valid (initial : ℕ) : (new initial).Valid := by
  constructor <;> simp [new, cheapPrepend]

@[simp] theorem new_readable (initial : ℕ) : (new initial).readable = [] := by
  simp [new, readable]

theorem Valid.readableBytes_eq (h : b.Valid) : b.readableBytes = b.writeIndex - b.readIndex := by
  simp [readableBytes, sizeSub, h.read_le]

theorem Valid.writableBytes_eq (h : b.Valid) :
    b.writableBytes = b.buffer.length - b.writeIndex := by
  simp [writableBytes, sizeSub, h.write_le]

theorem Valid.length_readable (h : b.Valid) : b.readable.length = b.readableBytes := by
  rw [h.readableBytes_eq]
  exact length_window h.write_le

theorem Valid.peekString_eq (h : b.Valid) {len : ℕ} (hl : len ≤ b.readable.length) :
    b.peekString len = b.readable.take len := by
  rw [h.length_readable, h.readableBytes_eq] at hl
  simp only [peekString, readable, window, List.take_take]
  congr 1
  omega

theorem Valid.toBytes_eq (h : b.Valid) : b.toBytes = b.readable := by
  simp [toBytes, readable, window, peekString, h.readableBytes_eq]

theorem Valid.findCrlf_eq (h : b.Valid) : b.findCrlf = search crlf b.readable := by
  rw [← h.toBytes_eq]
  rfl

theorem Valid.retrieveAll (h : b.Valid) : b.retrieveAll.Valid :=
  ⟨h.reserved, le_rfl, h.reserved⟩

@[simp] theorem retrieveAll_readable (b : Buffer) : b.retrieveAll.readable = [] := by
  simp [Buffer.retrieveAll, readable]

theorem retrieve_spec (h : b.Valid) (len : ℕ) :
    (b.retrieve len).Valid ∧ (b.retrieve len).readable = b.readable.drop len := by
  have hl := h.length_readable
  unfold retrieve
  split_ifs with hlt
  · rw [h.readableBytes_eq] at hlt
    refine ⟨⟨h.reserved, ?_, h.write_le⟩, ?_⟩
    · show b.readIndex + len ≤ b.writeIndex
      omega
    · exact (drop_window _ _ _ _).symm
  · refine ⟨h.retrieveAll, ?_⟩
    rw [retrieveAll_readable, List.drop_eq_nil_of_le (by omega)]

theorem retrieveAsString_spec (h : b.Valid) {len : ℕ} (hl : len ≤ b.readable.length) :
    (b.retrieveAsString len).1 = b.readable.take len ∧ (b.retrieveAsString len).2.Valid ∧
      (b.retrieveAsString len).2.readable = b.readable.drop len :=
  ⟨h.peekString_eq hl, (retrieve_spec h len).1, (retrieve_spec h len).2⟩

theorem unwrite_spec (h : b.Valid) {len : ℕ} (hl : len ≤ b.readable.length) :
    (b.unwrite len).Valid ∧
      (b.unwrite len).readable = b.readable.take (b.readable.length - len) := by
  rw [h.length_readable, h.readableBytes_eq] at hl
  have hw := h.write_le
  have hr := h.read_le
  have hsub : sizeSub b.writeIndex len = b.writeIndex - len := by
    simp only [sizeSub, if_pos (show len ≤ b.writeIndex by omega)]
  refine ⟨⟨h.reserved, ?_, ?_⟩, ?_⟩
  · simp only [unwrite, hsub]
    omega
  · simp only [unwrite, hsub]
    omega
  · rw [h.length_readable, h.readableBytes_eq]
    simp only [unwrite, readable, hsub]
    rw [take_window (by omega)]
    congr 1
    omega

/-- Making room never reads or writes outside the vector, keeps the readable bytes and
leaves enough writable ones. In the moving branch the data lies behind the reserved area,
so the copy goes towards the front. -/
theorem makeSpace_spec (h : b.Valid) {len : ℕ} (hlen : b.writableBytes < len) :
    ∃ b', b.makeSpace len = some b' ∧ b'.Valid ∧ b'.readable = b.readable ∧
      len ≤ b'.buffer.length - b'.writeIndex := by
  have hw := h.write_le
  have hr := h.read_le
  have h8 := h.reserved
  rw [h.writableBytes_eq] at hlen
  unfold makeSpace
  rw [h.writableBytes_eq]
  split_ifs with hgrow
  · refine ⟨_, rfl, ⟨?_, hr, ?_⟩, ?_, ?_⟩
    · simp only [length_resize]
      omega
    · simp only [length_resize]
      omega
    · exact window_resize (by omega) hw
    · simp only [length_resize]
      omega
  · simp only [prependableBytes] at hgrow
    obtain ⟨v, hv, -, -⟩ := copyForward_spec (b.writeIndex - b.readIndex) b.readIndex
      cheapPrepend b.buffer (by omega) (by omega)
    obtain ⟨hlv, hwin⟩ := window_copyForward (by omega) (by omega) hv
    refine ⟨_, by rw [hv]; rfl, ⟨?_, ?_, ?_⟩, ?_, ?_⟩
    · simpa only [hlv] using h8
    · exact Nat.le_add_right _ _
    · simp only [hlv, h.readableBytes_eq]
      omega
    · simp only [readable, h.readableBytes_eq, hwin]
      congr 1
      omega
    · simp only [hlv, h.readableBytes_eq]
      omega

theorem ensureWritableBytes_spec (h : b.Valid) (len : ℕ) :
    ∃ b', b.ensureWritableBytes len = some b' ∧ b'.Valid ∧ b'.readable = b.readable ∧
      len ≤ b'.buffer.length - b'.writeIndex := by
  unfold ensureWritableBytes
  split_ifs with hlt
  · exact makeSpace_spec h hlt
  · rw [h.writableBytes_eq] at hlt
    exact ⟨b, rfl, h, rfl, by omega⟩

theorem blit_back (h : b.Valid) {data : Bytes} (hfit : data.length ≤ b.buffer.length - b.writeIndex) :
    ∃ v, blit b.buffer b.writeIndex data = some v ∧
      (Buffer.mk v b.readIndex (b.writeIndex + data.length)).Valid ∧
      (Buffer.mk v b.readIndex (b.writeIndex + data.length)).readable = b.readable ++ data := by
  have hw := h.write_le
  obtain ⟨v, hv⟩ : ∃ v, blit b.buffer b.writeIndex data = some v := ⟨_, blit_eq_some (by omega)⟩
  refine ⟨v, hv, ?_⟩
  have hlen := blit_length hv
  refine ⟨⟨hlen ▸ h.reserved, h.read_le.trans (Nat.le_add_right _ _), ?_⟩, ?_⟩
  · simp only [hlen]
    omega
  · simp only [readable]
    rw [← window_append h.read_le (Nat.le_add_right _ data.length), window_blit hv,
      window_blit_before hv le_rfl]

theorem append_spec (h : b.Valid) (data : Bytes) :
    ∃ b', b.append data = some b' ∧ b'.Valid ∧ b'.readable = b.readable ++ data := by
  obtain ⟨b₁, h₁, hval, hread, hroom⟩ := ensureWritableBytes_spec h data.length
  obtain ⟨v, hv, hval', hread'⟩ := blit_back hval hroom
  refine ⟨_, ?_, hval', by rw [hread', hread]⟩
  simp only [append, h₁, Option.bind_some, hv, Option.map_some, hasWritten]

/-- `prepend` of at most `prependable_bytes()` stays inside and pushes at the front. -/
theorem prepend_spec (h : b.Valid) {data : Bytes} (hl : data.length ≤ b.prependableBytes) :
    ∃ b', b.prepend data = some b' ∧ b'.Valid ∧ b'.readable = data ++ b.readable := by
  have hw := h.write_le
  have hr := h.read_le
  simp only [prependableBytes] at hl
  have hsub : sizeSub b.readIndex data.length = b.readIndex - data.length := by
    simp only [sizeSub, if_pos hl]
  obtain ⟨v, hv⟩ : ∃ v, blit b.buffer (b.readIndex - data.length) data = some v :=
    ⟨_, blit_eq_some (by omega)⟩
  have hlen := blit_length hv
  refine ⟨_, by simp only [prepend, hsub, hv, Option.map_some]; rfl,
    ⟨hlen ▸ h.reserved, ?_, hlen ▸ hw⟩, ?_⟩
  · show b.readIndex - data.length ≤ b.writeIndex
    omega
  · simp only [readable]
    have hblk := window_blit hv
    rw [show b.readIndex - data.length + data.length = b.readIndex by omega] at hblk
    have hlo : b.readIndex - data.length ≤ b.readIndex := Nat.sub_le _ _
    rw [← window_append hlo hr, hblk, window_blit_after hv (by omega)]

/-- `read_fd` pushes what the kernel delivered, whether it fits the vector or spills. -/
theorem readFd_spec (h : b.Valid) (data : Bytes) :
    ∃ b', b.readFd (.received data) = some b' ∧ b'.Valid ∧ b'.readable = b.readable ++ data := by
  have hw := h.write_le
  have hwr := h.writableBytes_eq
  have hfit : (data.take b.writableBytes).length ≤ b.buffer.length - b.writeIndex := by
    rw [List.length_take, hwr]
    omega
  obtain ⟨v, hv, hval, hread⟩ := blit_back h hfit
  have hlen := blit_length hv
  simp only [readFd, hv, Option.bind_some]
  split_ifs with hle
  · rw [List.take_of_length_le hle] at hval hread
    exact ⟨_, rfl, hval, hread⟩
  · have hfull : b.writeIndex + (data.take b.writableBytes).length = v.length := by
      rw [List.length_take, hlen, hwr]
      omega
    rw [hfull] at hval hread
    obtain ⟨b', hb', hval', hread'⟩ := append_spec hval (data.drop b.writableBytes)
    refine ⟨b', hb', hval', ?_⟩
    rw [hread', hread, List.append_assoc, List.take_append_drop]

end Buffer

end TzzeroHttp.BufferModel
