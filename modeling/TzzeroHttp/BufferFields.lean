import TzzeroHttp.BufferIntegers

/-! Typed fields in the buffer. A script appends fields and reads them back, in any interleaving in
which no read overtakes the appends; the readable bytes are always the encodings of the fields that
are still to be read. -/
namespace TzzeroHttp.BufferFields
open ByteText BufferModel BufferMove BufferIntegers ByteOrder Runs

inductive Field
  | int8 (x : Int8)
  | int16 (x : Int16)
  | int32 (x : Int32)
  | raw (data : Bytes)
  deriving DecidableEq

inductive Kind
  | int8
  | int16
  | int32
  | raw (len : ℕ)
  deriving DecidableEq

namespace Field

def kind : Field → Kind
  | .int8 _ => .int8
  | .int16 _ => .int16
  | .int32 _ => .int32
  | .raw data => .raw data.length

def encoding : Field → Bytes
  | .int8 x => bigEndian 1 (x.toInt % 2 ^ 8).toNat
  | .int16 x => bigEndian 2 (x.toInt % 2 ^ 16).toNat
  | .int32 x => bigEndian 4 (x.toInt % 2 ^ 32).toNat
  | .raw data => data

def put (host : Host) : Field → Buffer → Option Buffer
  | .int8 x => appendInt8 host x
  | .int16 x => appendInt16 host x
  | .int32 x => appendInt32 host x
  | .raw data => (·.append data)

end Field

namespace Kind

def size : Kind → ℕ
  | .int8 => 1
  | .int16 => 2
  | .int32 => 4
  | .raw len => len

def peek (host : Host) (b : Buffer) : Kind → Option Field
  | .int8 => (peekInt8 host b).map .int8
  | .int16 => (peekInt16 host b).map .int16
  | .int32 => (peekInt32 host b).map .int32
  | .raw len => (fetch len b).map .raw

def read (host : Host) (b : Buffer) : Kind → Option (Field × Buffer)
  | .int8 => (readInt8 host b).map (Prod.map .int8 id)
  | .int16 => (readInt16 host b).map (Prod.map .int16 id)
  | .int32 => (readInt32 host b).map (Prod.map .int32 id)
  | .raw len => (fetch len b).map fun _ => Prod.map .raw id (b.retrieveAsString len)

end Kind

inductive Call
  | put (f : Field)
  | get (k : Kind)
  deriving DecidableEq

/-- Every read finds the next field still to be read, and is of its kind. -/
def Matching : List Kind → List Call → Prop
  | _, [] => True
  | pending, .put f :: calls => Matching (pending ++ [f.kind]) calls
  | [], .get _ :: _ => False
  | k :: pending, .get k' :: calls => k' = k ∧ Matching pending calls

instance decidableMatching : ∀ pending calls, Decidable (Matching pending calls)
  | _, [] => .isTrue trivial
  | pending, .put f :: calls => decidableMatching (pending ++ [f.kind]) calls
  | [], .get _ :: _ => .isFalse id
  | k :: pending, .get k' :: calls =>
    have := decidableMatching pending calls
    inferInstanceAs (Decidable (k' = k ∧ Matching pending calls))

/-- The script on one buffer. Every read is preceded by the peek of its kind; both results are
recorded. -/
def exec (host : Host) : Buffer → List Call → Option (List (Field × Field) × Buffer)
  | b, [] => some ([], b)
  | b, .put f :: calls => (f.put host b).bind fun b' => exec host b' calls
  | b, .get k :: calls =>
    (k.peek host b).bind fun peeked => (k.read host b).bind fun result =>
      (exec host result.2 calls).map fun r => ((peeked, result.1) :: r.1, r.2)

def puts (calls : List Call) : List Field :=
  calls.filterMap fun | .put f => some f | .get _ => none
def gets (calls : List Call) : ℕ := calls.countP fun | .put _ => false | .get _ => true

/-- What is readable may be read as fields in any way. Every matching script succeeds, its reads and
its peeks return the fields in order, and the rest is readable in its encoding. -/
def ReadsBack (host : Host) (b : Buffer) : Prop :=
  ∀ (earlier : List Field) (calls : List Call), b.readable = earlier.flatMap Field.encoding →
    Matching (earlier.map Field.kind) calls →
    ∃ b', exec host b calls =
        some (((earlier ++ puts calls).take (gets calls)).map fun f => (f, f), b') ∧
      b'.readable = ((earlier ++ puts calls).drop (gets calls)).flatMap Field.encoding

theorem toNat_toInt_emod {w : ℕ} (v : BitVec w) : (v.toInt % 2 ^ w).toNat = v.toNat := by
  have hemod : v.toInt % ((2 ^ w : ℕ) : ℤ) = v.toNat := by
    rw [BitVec.toInt_eq_toNat_bmod, Int.bmod_emod]
    exact Int.emod_eq_of_lt (by omega) (by exact_mod_cast v.isLt)
  push_cast at hemod
  rw [hemod, Int.toNat_natCast]

theorem encoding_int8 (x : Int8) : (Field.int8 x).encoding = bigEndian 1 x.toUInt8.toNat :=
  congrArg (bigEndian 1) (toNat_toInt_emod x.toBitVec)

theorem encoding_int16 (x : Int16) : (Field.int16 x).encoding = bigEndian 2 x.toUInt16.toNat :=
  congrArg (bigEndian 2) (toNat_toInt_emod x.toBitVec)

theorem encoding_int32 (x : Int32) : (Field.int32 x).encoding = bigEndian 4 x.toUInt32.toNat :=
  congrArg (bigEndian 4) (toNat_toInt_emod x.toBitVec)

variable {host : Host} {b : Buffer}

theorem put_spec (host : Host) (h : b.Valid) (f : Field) :
    ∃ b', f.put host b = some b' ∧ b'.Valid ∧ b'.readable = b.readable ++ f.encoding := by
  have hput : f.put host b = b.append f.encoding := by
    cases f with
    | int8 x => rw [Field.put, appendInt8_eq, encoding_int8]
    | int16 x => rw [Field.put, appendInt16_eq, encoding_int16]
    | int32 x => rw [Field.put, appendInt32_eq, encoding_int32]
    | raw data => rfl
  rw [hput]
  exact Buffer.append_spec h f.encoding

theorem peek_spec (h : b.Valid) {f : Field} {rest : Bytes} (hb : b.readable = f.encoding ++ rest) :
    f.kind.peek host b = some f := by
  cases f with
  | int8 x => exact congrArg (Option.map Field.int8) (peekInt8_eq h (encoding_int8 x ▸ hb))
  | int16 x => exact congrArg (Option.map Field.int16) (peekInt16_eq h (encoding_int16 x ▸ hb))
  | int32 x => exact congrArg (Option.map Field.int32) (peekInt32_eq h (encoding_int32 x ▸ hb))
  | raw data => exact congrArg (Option.map Field.raw) (fetch_eq h hb)

theorem read_eq_peek (k : Kind) :
    k.read host b = (k.peek host b).map fun f => (f, b.retrieve k.size) := by
  cases k with
  | int8 => simp [Kind.read, Kind.peek, Kind.size, readInt8, readWith, Function.comp_def]
  | int16 => simp [Kind.read, Kind.peek, Kind.size, readInt16, readWith, Function.comp_def]
  | int32 => simp [Kind.read, Kind.peek, Kind.size, readInt32, readWith, Function.comp_def]
  | raw len =>
    simp only [Kind.read, Kind.peek, fetch]
    split_ifs
    · rfl
    · rfl

theorem size_kind (f : Field) : f.kind.size = f.encoding.length := by
  cases f <;> simp [Field.kind, Kind.size, Field.encoding]

theorem read_spec (host : Host) (h : b.Valid) {f : Field} {rest : Bytes} (hb : b.readable = f.encoding ++ rest) :
    ∃ b', f.kind.read host b = some (f, b') ∧ b'.Valid ∧ b'.readable = rest := by
  obtain ⟨hval, hread⟩ := Buffer.retrieve_spec h f.kind.size
  refine ⟨_, by rw [read_eq_peek, peek_spec h hb, Option.map_some], hval, ?_⟩
  rw [hread, hb, size_kind, List.drop_left]

/-- On a buffer in order every script reads back what it and its predecessors have written. -/
theorem exec_spec {pending : List Field} {calls : List Call} (h : b.Valid)
    (hb : b.readable = pending.flatMap Field.encoding) (hcalls : Matching (pending.map Field.kind) calls) :
    ∃ b', exec host b calls =
        some (((pending ++ puts calls).take (gets calls)).map fun f => (f, f), b') ∧
      b'.readable = ((pending ++ puts calls).drop (gets calls)).flatMap Field.encoding := by
  induction calls generalizing b pending with
  | nil => exact ⟨b, by simp [exec, gets], by simpa [puts, gets] using hb⟩
  | cons call calls ih =>
    cases call with
    | put f =>
      obtain ⟨b₁, h₁, hval, hread⟩ := put_spec host h f
      have hb₁ : b₁.readable = (pending ++ [f]).flatMap Field.encoding := by simp [hread, hb]
      have hcalls₁ : Matching ((pending ++ [f]).map Field.kind) calls := by
        rw [List.map_append]
        exact hcalls
      obtain ⟨b', hexec, hend⟩ := ih hval hb₁ hcalls₁
      have hputs : pending ++ puts (.put f :: calls) = pending ++ [f] ++ puts calls := by simp [puts]
      have hgets : gets (.put f :: calls) = gets calls := by simp [gets]
      rw [hputs, hgets]
      exact ⟨b', by rw [exec, h₁, Option.bind_some, hexec], hend⟩
    | get k =>
      cases pending with
      | nil => exact absurd hcalls id
      | cons f pending =>
        obtain ⟨rfl, hcalls₁⟩ := hcalls
        obtain ⟨b₁, h₁, hval, hread⟩ := read_spec host h hb
        obtain ⟨b', hexec, hend⟩ := ih hval hread hcalls₁
        have hputs : f :: pending ++ puts (.get f.kind :: calls) = f :: (pending ++ puts calls) := by
          simp [puts]
        have hgets : gets (.get f.kind :: calls) = gets calls + 1 := by simp [gets]
        rw [hputs, hgets]
        refine ⟨b', ?_, hend⟩
        simp only [exec, peek_spec h hb, h₁, Option.bind_some, hexec, Option.map_some,
          List.take_succ_cons, List.map_cons]

theorem movedFrom_not_readsBack : ¬ ReadsBack host movedFrom := by
  intro h
  obtain ⟨b', hexec, -⟩ := h [] [.put (.int8 1)] rfl trivial
  have hnone : (Field.int8 1).put host movedFrom = none := by
    rw [Field.put, appendInt8_eq, movedFrom_append (by simp)]
  simp [exec, hnone] at hexec

variable {ι : Type*} [DecidableEq ι]

/-- After every sequence of buffer calls the typed fields appended to a buffer read back as written,
exactly if the buffer has not been moved from since it was last assigned to. -/
theorem fields_read_back_iff (host : Host) (initial : ι → ℕ) (ops : List (Op ι)) (s : ι → Buffer)
    (hops : Guarded step Allowed (fun i => Buffer.new (initial i)) ops)
    (hrun : run step (fun i => Buffer.new (initial i)) ops = some s) (i : ι) :
    ReadsBack host (s i) ↔ moved ops i = false := by
  have hvalid : (s i).Valid → ReadsBack host (s i) := fun h earlier calls hb hcalls =>
    exec_spec h hb hcalls
  have hiff := (run_condition hops hrun i).iff_and (Q := True)
    (fun h => iff_true_intro (hvalid h)) fun hb => by
      rw [hb]
      exact movedFrom_not_readsBack
  simpa using hiff

/-- A signed value between two strings, read back after a retrieve that makes room for it. -/
theorem fields_read_back_mixed :
    let ops : List (Op Bool) := [.plain (.append true [1, 2, 3]), .plain (.retrieve true 2)]
    let calls : List Call := [.put (.int16 (-2)), .get (.raw 1), .put (.raw [7]), .put (.int32 (-5)),
      .get .int16, .put (.int8 (-128)), .get (.raw 1)]
    ∃ s b', run step (fun _ => Buffer.new 4) ops = some s ∧
      exec .little (s true) calls = some ([.raw [3], .int16 (-2), .raw [7]].map fun f => (f, f), b') ∧
      b'.readable = [255, 255, 255, 251, 128] := by
  intro ops calls
  have hops : Guarded step Allowed (fun _ => Buffer.new 4) ops := by decide
  have hend : (run step (fun _ => Buffer.new 4) ops).map (fun s => (s true).readable) = some [3] := by
    decide
  obtain ⟨s, hs, hreadable⟩ := Option.map_eq_some_iff.mp hend
  have hback := (fields_read_back_iff .little (fun _ => 4) ops s hops hs true).mpr (by decide)
  obtain ⟨b', hexec, hend⟩ := hback [.raw [3]] calls hreadable (by decide)
  exact ⟨s, b', hs, hexec, hend⟩

/-- A field appended to the source of a move is stored outside the vector. -/
theorem fields_lost_after_move :
    ¬ ∀ (initial : Bool → ℕ) (ops : List (Op Bool)) (s : Bool → Buffer),
      Guarded step Allowed (fun i => Buffer.new (initial i)) ops →
        run step (fun i => Buffer.new (initial i)) ops = some s → ∀ i, ReadsBack .little (s i) := by
  intro h
  let ops : List (Op Bool) := [.plain (.append true [1]), .move false true]
  have hops : Guarded step Allowed (fun _ => Buffer.new 16) ops := by decide
  have hend : (run step (fun _ => Buffer.new 16) ops).map (fun s => s true) = some movedFrom := by decide
  obtain ⟨s, hs, hmoved⟩ := Option.map_eq_some_iff.mp hend
  exact movedFrom_not_readsBack (hmoved ▸ h (fun _ => 16) ops s hops hs true)

end TzzeroHttp.BufferFields
