import TzzeroHttp.BufferMove
import TzzeroHttp.ByteOrder

/-! Integers in the buffer. A value is converted to network order, stored as the host stores it and
appended; reading loads the bytes at the read index and converts back. The loads need no
alignment; one that reaches outside the vector is the value `none`. -/
namespace TzzeroHttp.BufferIntegers
open ByteText BufferModel BufferMove ByteOrder Runs

/-- `htons` and `ntohs`. -/
def htons (host : Host) (x : UInt16) : UInt16 := UInt16.ofNat (host.network 2 x.toNat)

/-- `htonl` and `ntohl`. -/
def htonl (host : Host) (x : UInt32) : UInt32 := UInt32.ofNat (host.network 4 x.toNat)

def fetch (len : ℕ) (b : Buffer) : Option Bytes :=
  if b.readIndex + len ≤ b.buffer.length then some (b.peekString len) else none

/-- What the `read_intN` have in common: a peek, and the bytes of the result leave the buffer. -/
def readWith {α : Type*} (peek : Buffer → Option α) (size : ℕ) (b : Buffer) : Option (α × Buffer) :=
  (peek b).map fun result => (result, b.retrieve size)

variable (host : Host)

def appendInt8 (x : Int8) (b : Buffer) : Option Buffer := b.append (host.store 1 x.toUInt8.toNat)

def appendInt16 (x : Int16) (b : Buffer) : Option Buffer :=
  let be : Int16 := (htons host x.toUInt16).toInt16
  b.append (host.store 2 be.toUInt16.toNat)

def appendInt32 (x : Int32) (b : Buffer) : Option Buffer :=
  let be : Int32 := (htonl host x.toUInt32).toInt32
  b.append (host.store 4 be.toUInt32.toNat)

def appendInt64 (x : Int64) (b : Buffer) : Option Buffer :=
  let high : Int32 := ((x >>> 32) &&& 0xFFFFFFFF).toInt32
  let low : Int32 := (x &&& 0xFFFFFFFF).toInt32
  (appendInt32 host high b).bind (appendInt32 host low)

def peekInt8 (b : Buffer) : Option Int8 :=
  (fetch 1 b).map fun bytes => (UInt8.ofNat (host.load bytes)).toInt8

def peekInt16 (b : Buffer) : Option Int16 :=
  (fetch 2 b).map fun bytes =>
    let be : Int16 := (UInt16.ofNat (host.load bytes)).toInt16
    (htons host be.toUInt16).toInt16

def peekInt32 (b : Buffer) : Option Int32 :=
  (fetch 4 b).map fun bytes =>
    let be : Int32 := (UInt32.ofNat (host.load bytes)).toInt32
    (htonl host be.toUInt32).toInt32

/-- Both halves are read at the same place. -/
def peekInt64 (b : Buffer) : Option Int64 :=
  (peekInt32 host b).bind fun high => (peekInt32 host b).map fun low =>
    (high.toInt64 <<< 32) ||| low.toUInt32.toUInt64.toInt64

def readInt8 : Buffer → Option (Int8 × Buffer) := readWith (peekInt8 host) 1
def readInt16 : Buffer → Option (Int16 × Buffer) := readWith (peekInt16 host) 2
def readInt32 : Buffer → Option (Int32 × Buffer) := readWith (peekInt32 host) 4
def readInt64 : Buffer → Option (Int64 × Buffer) := readWith (peekInt64 host) 8

variable {host} {b : Buffer}

theorem toNat_htons (x : UInt16) : (htons host x).toNat = host.network 2 x.toNat := by
  rw [htons, UInt16.toNat_ofNat']
  exact Nat.mod_eq_of_lt (host.network_lt x.toNat_lt)

theorem toNat_htonl (x : UInt32) : (htonl host x).toNat = host.network 4 x.toNat := by
  rw [htonl, UInt32.toNat_ofNat']
  exact Nat.mod_eq_of_lt (host.network_lt x.toNat_lt)

theorem appendInt8_eq (x : Int8) : appendInt8 host x b = b.append (bigEndian 1 x.toUInt8.toNat) := by
  cases host <;> rfl

theorem appendInt16_eq (x : Int16) : appendInt16 host x b = b.append (bigEndian 2 x.toUInt16.toNat) := by
  rw [appendInt16, UInt16.toUInt16_toInt16, toNat_htons, host.store_network]

theorem appendInt32_eq (x : Int32) : appendInt32 host x b = b.append (bigEndian 4 x.toUInt32.toNat) := by
  rw [appendInt32, UInt32.toUInt32_toInt32, toNat_htonl, host.store_network]

theorem fetch_eq (h : b.Valid) {bytes rest : Bytes} (hb : b.readable = bytes ++ rest) :
    fetch bytes.length b = some bytes := by
  have hlen : bytes.length ≤ b.readable.length := by simp [hb]
  have hroom : b.readIndex + bytes.length ≤ b.buffer.length := by
    have hl := h.length_readable
    have hr := h.read_le
    have hw := h.write_le
    rw [h.readableBytes_eq] at hl
    omega
  rw [fetch, if_pos hroom, h.peekString_eq hlen, hb, List.take_left]

theorem peekInt8_eq (h : b.Valid) {x : Int8} {rest : Bytes}
    (hb : b.readable = bigEndian 1 x.toUInt8.toNat ++ rest) : peekInt8 host b = some x := by
  have hfetch := fetch_eq h hb
  rw [length_bigEndian] at hfetch
  have hbyte : host.load (bigEndian 1 x.toUInt8.toNat) = x.toUInt8.toNat := by
    have hone : ∀ n, host.load (bigEndian 1 n) = ofBigEndian (bigEndian 1 n) := by cases host <;> exact fun _ => rfl
    rw [hone, ofBigEndian_bigEndian]
    exact Nat.mod_eq_of_lt x.toUInt8.toNat_lt
  simp only [peekInt8, hfetch, Option.map_some, hbyte, UInt8.ofNat_toNat, Int8.toInt8_toUInt8]

theorem peekInt16_eq (h : b.Valid) {x : Int16} {rest : Bytes}
    (hb : b.readable = bigEndian 2 x.toUInt16.toNat ++ rest) : peekInt16 host b = some x := by
  have hfetch := fetch_eq h hb
  rw [length_bigEndian] at hfetch
  have hword := UInt16.toNat_ofNat_of_lt' (host.load_bigEndian_lt 2 x.toUInt16.toNat)
  have hnat := host.network_load_bigEndian (w := 2) x.toUInt16.toNat_lt
  simp only [peekInt16, hfetch, Option.map_some, UInt16.toUInt16_toInt16, htons, hword, hnat,
    UInt16.ofNat_toNat, Int16.toInt16_toUInt16]

theorem peekInt32_eq (h : b.Valid) {x : Int32} {rest : Bytes}
    (hb : b.readable = bigEndian 4 x.toUInt32.toNat ++ rest) : peekInt32 host b = some x := by
  have hfetch := fetch_eq h hb
  rw [length_bigEndian] at hfetch
  have hword := UInt32.toNat_ofNat_of_lt' (host.load_bigEndian_lt 4 x.toUInt32.toNat)
  have hnat := host.network_load_bigEndian (w := 4) x.toUInt32.toNat_lt
  simp only [peekInt32, hfetch, Option.map_some, UInt32.toUInt32_toInt32, htonl, hword, hnat,
    UInt32.ofNat_toNat, Int32.toInt32_toUInt32]

def upper (x : Int64) : BitVec 32 := x.toBitVec.extractLsb' 32 32
def lower (x : Int64) : BitVec 32 := x.toBitVec.extractLsb' 0 32

theorem mask_getElem {i : ℕ} (hi : i < 32) : (4294967295#32)[i] = true := by
  have hones : 4294967295#32 = BitVec.allOnes 32 := rfl
  simp only [hones, BitVec.getElem_allOnes]

theorem high_toBitVec (x : Int64) : ((x >>> 32) &&& 0xFFFFFFFF).toInt32.toBitVec = upper x := by
  unfold upper
  ext i hi
  have h64 : i < 64 := by omega
  have h64' : 32 + i < 64 := by omega
  simp [BitVec.getElem_signExtend, BitVec.getElem_sshiftRight, mask_getElem hi, h64, h64']

theorem join_toBitVec (high low : Int32) :
    ((high.toInt64 <<< 32) ||| low.toUInt32.toUInt64.toInt64).toBitVec =
      high.toBitVec ++ low.toBitVec := by
  ext i hi
  rw [BitVec.getElem_append]
  by_cases hlow : i < 32
  · simp [hlow]
  · have hhigh : i - 32 < 32 := by omega
    have hnone : low.toBitVec.getLsbD i = false := BitVec.getLsbD_of_ge _ _ (by omega)
    simp [hlow, hnone, BitVec.getElem_signExtend, hhigh]

theorem upper_append_lower (x : Int64) : upper x ++ lower x = x.toBitVec :=
  BitVec.extractLsb'_append_extractLsb' (w := 32)

theorem append_self_eq_iff (x : Int64) : upper x ++ upper x = x.toBitVec ↔ upper x = lower x := by
  rw [← upper_append_lower x]
  constructor
  · intro h
    have hlow := congrArg (BitVec.extractLsb' 0 32) h
    rwa [BitVec.extractLsb'_append_eq_right, BitVec.extractLsb'_append_eq_right] at hlow
  · intro h
    rw [h]

/-- The value is appended behind what is readable, other bytes may follow it; with the earlier bytes
retrieved, `peek_int64` and `read_int64` return it and its eight bytes are what leaves the buffer. -/
def Survives (host : Host) (x : Int64) (later : Bytes) (b : Buffer) : Prop :=
  ∃ b₁ b₂ b₃, appendInt64 host x b = some b₁ ∧ b₁.append later = some b₂ ∧
    peekInt64 host (b₂.retrieve b.readableBytes) = some x ∧
    readInt64 host (b₂.retrieve b.readableBytes) = some (x, b₃) ∧
    (b₂.retrieve b.readableBytes).readable.length = 8 + later.length ∧ b₃.readable = later

/-- What the code reads back: the upper half twice. -/
theorem appendInt64_peek (h : b.Valid) (x : Int64) (later : Bytes) :
    ∃ b₁ b₂, ∃ y : Int64, appendInt64 host x b = some b₁ ∧ b₁.append later = some b₂ ∧
      y.toBitVec = upper x ++ upper x ∧ (b₂.retrieve b.readableBytes).Valid ∧
      peekInt64 host (b₂.retrieve b.readableBytes) = some y ∧
      ∃ bytes, bytes.length = 8 ∧ (b₂.retrieve b.readableBytes).readable = bytes ++ later := by
  let high : Int32 := ((x >>> 32) &&& 0xFFFFFFFF).toInt32
  let low : Int32 := (x &&& 0xFFFFFFFF).toInt32
  obtain ⟨b₀, h₀, hval₀, hread₀⟩ := Buffer.append_spec h (bigEndian 4 high.toUInt32.toNat)
  obtain ⟨b₁, h₁, hval₁, hread₁⟩ := Buffer.append_spec hval₀ (bigEndian 4 low.toUInt32.toNat)
  obtain ⟨b₂, h₂, hval₂, hread₂⟩ := Buffer.append_spec hval₁ later
  obtain ⟨hval, hread⟩ := Buffer.retrieve_spec hval₂ b.readableBytes
  rw [hread₂, hread₁, hread₀, ← h.length_readable] at hread
  simp only [List.append_assoc, List.drop_left] at hread
  rw [h.length_readable] at hread
  have hpeek : peekInt32 host (b₂.retrieve b.readableBytes) = some high := peekInt32_eq hval hread
  refine ⟨b₁, b₂, (high.toInt64 <<< 32) ||| high.toUInt32.toUInt64.toInt64, ?_, h₂, ?_, hval, ?_,
    bigEndian 4 high.toUInt32.toNat ++ bigEndian 4 low.toUInt32.toNat, by simp, by simp [hread]⟩
  · simp only [appendInt64, appendInt32_eq]
    rw [h₀, Option.bind_some, h₁]
  · rw [join_toBitVec, high_toBitVec]
  · simp only [peekInt64, hpeek, Option.bind_some, Option.map_some]

theorem survives_iff_of_valid (h : b.Valid) (x : Int64) (later : Bytes) :
    Survives host x later b ↔ upper x = lower x := by
  obtain ⟨b₁, b₂, y, h₁, h₂, hy, hval, hpeek, bytes, hbytes, hread⟩ := appendInt64_peek h x later
  have hxy : y = x ↔ upper x = lower x := by rw [← append_self_eq_iff, ← hy, Int64.toBitVec_inj]
  rw [← hxy]
  constructor
  · rintro ⟨b₁', b₂', -, h₁', h₂', hpeek', -⟩
    obtain rfl := Option.some.inj (h₁.symm.trans h₁')
    obtain rfl := Option.some.inj (h₂.symm.trans h₂')
    exact Option.some.inj (hpeek.symm.trans hpeek')
  · rintro rfl
    refine ⟨b₁, b₂, (b₂.retrieve b.readableBytes).retrieve 8, h₁, h₂, hpeek, ?_, ?_, ?_⟩
    · rw [readInt64, readWith, hpeek, Option.map_some]
    · rw [hread, List.length_append, hbytes]
    · rw [(Buffer.retrieve_spec hval 8).2, hread, ← hbytes, List.drop_left]

theorem movedFrom_not_survives (x : Int64) (later : Bytes) : ¬ Survives host x later movedFrom := by
  rintro ⟨b₁, -, -, h₁, -⟩
  have hnone : ∀ y : Int32, appendInt32 host y movedFrom = none := fun y => by
    rw [appendInt32_eq, movedFrom_append (by simp)]
  simp [appendInt64, hnone] at h₁

variable {ι : Type*} [DecidableEq ι]

/-- After every sequence of buffer calls, and for every value: a 64-bit integer survives the buffer
exactly if the two halves of the value are equal and the buffer has not been moved from. -/
theorem int64_survives_iff (host : Host) (initial : ι → ℕ) (ops : List (Op ι)) (s : ι → Buffer)
    (hops : Guarded step Allowed (fun i => Buffer.new (initial i)) ops)
    (hrun : run step (fun i => Buffer.new (initial i)) ops = some s) (i : ι) (x : Int64)
    (later : Bytes) :
    Survives host x later (s i) ↔ upper x = lower x ∧ moved ops i = false := by
  refine (run_condition hops hrun i).iff_and (fun h => survives_iff_of_valid h x later) fun hb => ?_
  rw [hb]
  exact movedFrom_not_survives x later

/-- Equal halves, behind bytes that are retrieved first. -/
theorem int64_survives_equal_halves :
    let ops : List (Op Bool) := [.plain (.append true [1, 2]), .plain (.retrieve true 1)]
    ∃ s, run step (fun _ => Buffer.new 4) ops = some s ∧ (s true).readable = [2] ∧
      Survives .little 0x0000002A0000002A [7] (s true) := by
  intro ops
  have hops : Guarded step Allowed (fun _ => Buffer.new 4) ops := by decide
  have hend : (run step (fun _ => Buffer.new 4) ops).map (fun s => (s true).readable) = some [2] := by
    decide
  obtain ⟨s, hs, hreadable⟩ := Option.map_eq_some_iff.mp hend
  exact ⟨s, hs, hreadable,
    (int64_survives_iff .little (fun _ => 4) ops s hops hs true _ [7]).mpr ⟨by decide, by decide⟩⟩

/-- The value of the repository's own test is read back with its upper half in both places. -/
theorem int64_max_lost :
    let b := Buffer.new 16
    ¬ Survives .little Int64.maxValue [] b ∧
      ((appendInt64 .little Int64.maxValue b).bind (readInt64 .little)).map Prod.fst =
        some 0x7FFFFFFF7FFFFFFF := by
  intro b
  refine ⟨fun h => ?_, by decide⟩
  exact absurd ((survives_iff_of_valid (Buffer.new_valid 16) _ _).mp h) (by decide)

end TzzeroHttp.BufferIntegers
