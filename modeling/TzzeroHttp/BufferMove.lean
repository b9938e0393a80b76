import TzzeroHttp.BufferQueue

/-! Moving buffers. A move takes the vector away and sets the indices of the source to
`kCheapPrepend`, behind the end of the empty vector that is left. Such a buffer stays out of order
until something is assigned to it, whatever else is called on it. -/
namespace TzzeroHttp.BufferMove
open ByteText BufferModel ListBlock Runs

/-- `hasWritten` is a caller that stores the data at `begin_write()` and reports it, `move` is move
construction or move assignment. -/
inductive Op (ι : Type*)
  | plain (op : BufferQueue.Op ι)
  | hasWritten (i : ι) (data : Bytes)
  | move (target source : ι)
  deriving DecidableEq

/-- What a move leaves behind. -/
def movedFrom : Buffer := ⟨[], cheapPrepend, cheapPrepend⟩

def writeBack (data : Bytes) (b : Buffer) : Option Buffer :=
  (blit b.buffer b.writeIndex data).map fun v => { b with buffer := v }.hasWritten data.length

variable {ι : Type*} [DecidableEq ι]

/-- Move assignment checks for the same object. -/
def step (s : ι → Buffer) : Op ι → Option (ι → Buffer)
  | .plain op => BufferQueue.step s op
  | .hasWritten i data => (writeBack data (s i)).map (Function.update s i)
  | .move i j =>
    some (if i = j then s else Function.update (Function.update s i (s j)) j movedFrom)

def Sized : BufferQueue.Op ι → Prop
  | .append _ data => data.length < 2 ^ 63
  | .ensureWritableBytes _ len => len < 2 ^ 63
  | _ => True

instance : DecidablePred (Sized (ι := ι))
  | .append _ _ | .ensureWritableBytes _ _ => Nat.decLt _ _
  | .prepend _ _ | .retrieve _ _ | .retrieveAll _ | .retrieveAsString _ _ | .unwrite _ _
  | .readFd _ _ | .writeFd _ _ | .copy _ _ | .swap _ _ => .isTrue trivial

def Allowed (s : ι → Buffer) : Op ι → Prop
  | .plain op => BufferQueue.Allowed s op ∧ Sized op
  | .hasWritten i data => data.length ≤ (s i).writableBytes
  | .move _ _ => True

instance decidableAllowed (s : ι → Buffer) : ∀ op, Decidable (Allowed s op)
  | .plain op => inferInstanceAs (Decidable (BufferQueue.Allowed s op ∧ Sized op))
  | .hasWritten _ _ => Nat.decLe _ _
  | .move _ _ => .isTrue trivial

def movedStep (m : ι → Bool) : Op ι → ι → Bool
  | .plain (.copy i j) => Function.update m i (m j)
  | .plain (.swap i j) => Function.update (Function.update m i (m j)) j (m i)
  | .plain _ | .hasWritten _ _ => m
  | .move i j => if i = j then m else Function.update (Function.update m i (m j)) j true

def moved (ops : List (Op ι)) : ι → Bool := ops.foldl movedStep fun _ => false

/-- The index order, no wrap in `writable_bytes()`, and every `append` stays inside the vector. -/
structure Usable (b : Buffer) : Prop where
  read_le : b.readIndex ≤ b.writeIndex
  write_le : b.writeIndex ≤ b.buffer.length
  writable : b.writableBytes = b.buffer.length - b.writeIndex
  append : ∀ data, ∃ b', b.append data = some b'

theorem usable_of_valid {b : Buffer} (h : b.Valid) : Usable b := by
  refine ⟨h.read_le, h.write_le, h.writableBytes_eq, fun data => ?_⟩
  obtain ⟨b', hb, -⟩ := Buffer.append_spec h data
  exact ⟨b', hb⟩

theorem movedFrom_not_usable : ¬ Usable movedFrom := by
  intro h
  have hle := h.write_le
  simp [movedFrom, cheapPrepend] at hle

/-- The state of one buffer: as a move left it, or in order. -/
def Condition (moved : Bool) (b : Buffer) : Prop := if moved then b = movedFrom else b.Valid

def Tracks (s : ι → Buffer) (m : ι → Bool) : Prop := ∀ i, Condition (m i) (s i)

theorem Condition.iff_and {moved : Bool} {b : Buffer} {P Q : Prop} (h : Condition moved b)
    (hvalid : b.Valid → (P ↔ Q)) (hmoved : b = movedFrom → ¬ P) : P ↔ Q ∧ moved = false := by
  cases moved with
  | false => simpa using hvalid h
  | true => simpa using hmoved h

theorem Condition.usable_iff {moved : Bool} {b : Buffer} (h : Condition moved b) :
    Usable b ↔ moved = false := by
  have hiff := h.iff_and (Q := True) (fun hv => iff_true_intro (usable_of_valid hv)) fun hb => by
    rw [hb]
    exact movedFrom_not_usable
  simpa using hiff

variable {s s' : ι → Buffer} {m : ι → Bool}

theorem tracks_update (h : Tracks s m) {i : ι} {b : Buffer} {moved : Bool} (hb : Condition moved b) :
    Tracks (Function.update s i b) (Function.update m i moved) := by
  intro k
  by_cases hk : k = i
  · subst hk
    simpa using hb
  · simpa [Function.update_of_ne hk] using h k

theorem tracks_update_same (h : Tracks s m) {i : ι} {b : Buffer} (hb : Condition (m i) b) :
    Tracks (Function.update s i b) m := by
  have hu := tracks_update h (i := i) hb
  rwa [Function.update_eq_self] at hu

/-- An operation on one buffer that keeps a valid buffer valid, and that on one that was moved
from stores outside the vector or does nothing. -/
theorem condition_step {f : Buffer → Option Buffer} {moved : Bool} {b b' : Buffer}
    (hvalid : b.Valid → ∃ c, f b = some c ∧ c.Valid)
    (hmoved : b = movedFrom → f movedFrom = none ∨ f movedFrom = some movedFrom)
    (h : Condition moved b) (hf : f b = some b') : Condition moved b' := by
  cases moved with
  | false =>
    obtain ⟨c, hc, hcvalid⟩ := hvalid h
    obtain rfl := Option.some.inj (hc.symm.trans hf)
    exact hcvalid
  | true =>
    have hb : b = movedFrom := h
    rcases hmoved hb with hnone | hsome
    · rw [hb, hnone] at hf
      cases hf
    · rw [hb] at hf
      exact (Option.some.inj (hsome.symm.trans hf)).symm

theorem tracks_step {f : Buffer → Option Buffer} {i : ι} (h : Tracks s m)
    (hvalid : (s i).Valid → ∃ c, f (s i) = some c ∧ c.Valid)
    (hmoved : s i = movedFrom → f movedFrom = none ∨ f movedFrom = some movedFrom)
    (hstep : (f (s i)).map (Function.update s i) = some s') : Tracks s' m := by
  obtain ⟨b', hf, rfl⟩ := Option.map_eq_some_iff.mp hstep
  exact tracks_update_same h (condition_step hvalid hmoved (h i) hf)

@[simp] theorem movedFrom_readableBytes : movedFrom.readableBytes = 0 := by
  simp [movedFrom, Buffer.readableBytes, sizeSub]

/-- The wrap that hides the missing vector. -/
theorem movedFrom_writableBytes : movedFrom.writableBytes = 2 ^ 64 - 8 := by
  simp [movedFrom, Buffer.writableBytes, sizeSub, cheapPrepend]

theorem movedFrom_ensureWritableBytes {len : ℕ} (h : len < 2 ^ 63) :
    movedFrom.ensureWritableBytes len = some movedFrom := by
  rw [Buffer.ensureWritableBytes, movedFrom_writableBytes, if_neg (by omega)]

theorem movedFrom_append {data : Bytes} (h : data.length < 2 ^ 63) : movedFrom.append data = none := by
  rw [Buffer.append, movedFrom_ensureWritableBytes h]
  simp [movedFrom, blit, cheapPrepend]

theorem movedFrom_prepend {data : Bytes} (h : data.length ≤ cheapPrepend) :
    movedFrom.prepend data = none := by
  have hsub : sizeSub cheapPrepend data.length = cheapPrepend - data.length := if_pos h
  have hout : ¬ cheapPrepend - data.length + data.length ≤ 0 := by
    rw [Nat.sub_add_cancel h]
    decide
  simp only [Buffer.prepend, movedFrom, hsub, blit, List.length_nil, if_neg hout, Option.map_none]

theorem movedFrom_readFd (data : Bytes) : movedFrom.readFd (.received data) = none := by
  simp [Buffer.readFd, movedFrom, blit, cheapPrepend]

theorem movedFrom_retrieve (len : ℕ) : movedFrom.retrieve len = movedFrom := by
  rw [Buffer.retrieve, movedFrom_readableBytes, if_neg (Nat.not_lt_zero len)]
  rfl

theorem movedFrom_unwrite {len : ℕ} (h : len ≤ 0) : movedFrom.unwrite len = movedFrom := by
  obtain rfl := Nat.le_zero.mp h
  simp [Buffer.unwrite, movedFrom, sizeSub]

theorem tracks_retrieve (h : Tracks s m) (i : ι) (len : ℕ) :
    Tracks (Function.update s i ((s i).retrieve len)) m := by
  refine tracks_step (f := fun b => some (b.retrieve len)) h (fun hv => ?_) (fun _ => .inr ?_) rfl
  · exact ⟨_, rfl, (Buffer.retrieve_spec hv len).1⟩
  · rw [movedFrom_retrieve]

theorem plain_tracks {op : BufferQueue.Op ι} (h : Tracks s m) (hop : Allowed s (.plain op))
    (hstep : BufferQueue.step s op = some s') : Tracks s' (movedStep m (.plain op)) := by
  obtain ⟨hallowed, hsized⟩ := hop
  cases op with
  | append i data =>
    refine tracks_step (f := (·.append data)) h (fun hv => ?_) ?_ hstep
    · obtain ⟨b, hb, hval, -⟩ := Buffer.append_spec hv data
      exact ⟨b, hb, hval⟩
    · exact fun _ => .inl (movedFrom_append hsized)
  | prepend i data =>
    refine tracks_step (f := (·.prepend data)) h (fun hv => ?_) (fun hi => ?_) hstep
    · obtain ⟨b, hb, hval, -⟩ := Buffer.prepend_spec hv hallowed
      exact ⟨b, hb, hval⟩
    · have hle : data.length ≤ (s i).prependableBytes := hallowed
      rw [hi] at hle
      exact .inl (movedFrom_prepend hle)
  | retrieve i len =>
    obtain rfl := Option.some.inj hstep
    exact tracks_retrieve h i len
  | retrieveAll i =>
    refine tracks_step (f := fun b => some b.retrieveAll) h (fun hv => ?_) (fun _ => .inr rfl) hstep
    exact ⟨_, rfl, hv.retrieveAll⟩
  | retrieveAsString i len =>
    obtain rfl := Option.some.inj hstep
    exact tracks_retrieve h i len
  | ensureWritableBytes i len =>
    refine tracks_step (f := (·.ensureWritableBytes len)) h (fun hv => ?_) ?_ hstep
    · obtain ⟨b, hb, hval, -⟩ := Buffer.ensureWritableBytes_spec hv len
      exact ⟨b, hb, hval⟩
    · exact fun _ => .inr (movedFrom_ensureWritableBytes hsized)
  | unwrite i len =>
    have hle : len ≤ (s i).readableBytes := hallowed
    refine tracks_step (f := fun b => some (b.unwrite len)) h (fun hv => ?_) (fun hi => ?_) hstep
    · exact ⟨_, rfl, (Buffer.unwrite_spec hv (hle.trans hv.length_readable.ge)).1⟩
    · rw [hi, movedFrom_readableBytes] at hle
      exact .inr (by rw [movedFrom_unwrite hle])
  | readFd i result =>
    cases result with
    | failed e =>
      refine tracks_step (f := fun b => some b) h (fun hv => ?_) (fun _ => .inr rfl) hstep
      exact ⟨_, rfl, hv⟩
    | received data =>
      refine tracks_step (f := (·.readFd (.received data))) h (fun hv => ?_) ?_ hstep
      · obtain ⟨b, hb, hval, -⟩ := Buffer.readFd_spec hv data
        exact ⟨b, hb, hval⟩
      · exact fun _ => .inl (movedFrom_readFd data)
  | writeFd i result =>
    cases result with
    | failed e =>
      refine tracks_step (f := fun b => some b) h (fun hv => ?_) (fun _ => .inr rfl) hstep
      exact ⟨_, rfl, hv⟩
    | wrote n =>
      obtain rfl := Option.some.inj hstep
      exact tracks_retrieve h i n
  | copy i j =>
    obtain rfl := Option.some.inj hstep
    exact tracks_update h (h j)
  | swap i j =>
    obtain rfl := Option.some.inj hstep
    exact tracks_update (tracks_update h (h j)) (h i)

theorem step_tracks {op : Op ι} (h : Tracks s m) (hop : Allowed s op) (hstep : step s op = some s') :
    Tracks s' (movedStep m op) := by
  cases op with
  | plain op => exact plain_tracks h hop hstep
  | hasWritten i data =>
    have houtside : writeBack data movedFrom = none := by
      simp [writeBack, movedFrom, blit, cheapPrepend]
    refine tracks_step (f := writeBack data) h (fun hv => ?_) (fun _ => .inl houtside) hstep
    have hfit : data.length ≤ (s i).writableBytes := hop
    rw [hv.writableBytes_eq] at hfit
    obtain ⟨v, hblit, hval, -⟩ := Buffer.blit_back hv hfit
    exact ⟨_, by rw [writeBack, hblit]; rfl, hval⟩
  | move i j =>
    obtain rfl := Option.some.inj hstep
    simp only [movedStep]
    split_ifs with hij
    · exact h
    · exact tracks_update (tracks_update h (h j)) rfl

theorem run_tracks {ops : List (Op ι)} (h : Tracks s m) (hops : Guarded step Allowed s ops)
    (hrun : run step s ops = some s') : Tracks s' (ops.foldl movedStep m) := by
  induction ops generalizing s m with
  | nil =>
    obtain rfl := Option.some.inj hrun
    exact h
  | cons op ops ih =>
    obtain ⟨s₁, h₁, h₂⟩ := run_cons.mp hrun
    exact ih (step_tracks h hops.1 h₁) (hops.2 s₁ h₁) h₂

theorem run_condition {initial : ι → ℕ} {ops : List (Op ι)} {s : ι → Buffer}
    (hops : Guarded step Allowed (fun i => Buffer.new (initial i)) ops)
    (hrun : run step (fun i => Buffer.new (initial i)) ops = some s) (i : ι) :
    Condition (moved ops i) (s i) := by
  have hstart : Tracks (fun i => Buffer.new (initial i)) fun _ => false :=
    fun i => Buffer.new_valid (initial i)
  exact run_tracks hstart hops hrun i

/-- After every sequence of calls a buffer of the family is usable exactly if it has not been moved
from since it was last assigned to; all are, exactly if this is so for each. -/
theorem buffers_usable_iff (initial : ι → ℕ) (ops : List (Op ι)) (s : ι → Buffer)
    (hops : Guarded step Allowed (fun i => Buffer.new (initial i)) ops)
    (hrun : run step (fun i => Buffer.new (initial i)) ops = some s) :
    (∀ i, Usable (s i) ↔ moved ops i = false) ∧ ((∀ i, Usable (s i)) ↔ ∀ i, moved ops i = false) := by
  have hone : ∀ i, Usable (s i) ↔ moved ops i = false := fun i => (run_condition hops hrun i).usable_iff
  exact ⟨hone, forall_congr' hone⟩

/-- A buffer is moved from, assigned to and appended to. -/
theorem buffers_usable_reassigned :
    let ops : List (Op Bool) := [.plain (.append true [1, 2]), .move false true,
      .plain (.retrieve true 1), .plain (.copy true false), .move true true,
      .plain (.append true [3])]
    ∃ s, run step (fun _ => Buffer.new 4) ops = some s ∧ (s true).readable = [1, 2, 3] ∧
      ∀ i, Usable (s i) := by
  intro ops
  have hops : Guarded step Allowed (fun _ => Buffer.new 4) ops := by decide
  have hend : (run step (fun _ => Buffer.new 4) ops).map (fun s => (s true).readable) =
      some [1, 2, 3] := by decide
  obtain ⟨s, hs, hreadable⟩ := Option.map_eq_some_iff.mp hend
  exact ⟨s, hs, hreadable, (buffers_usable_iff (fun _ => 4) ops s hops hs).2.mpr (by decide)⟩

/-- The source of a move construction: the write index is 8 and the vector is empty. -/
theorem moved_from_out_of_order :
    ¬ ∀ (initial : Bool → ℕ) (ops : List (Op Bool)) (s : Bool → Buffer),
      Guarded step Allowed (fun i => Buffer.new (initial i)) ops →
        run step (fun i => Buffer.new (initial i)) ops = some s → ∀ i, Usable (s i) := by
  intro h
  let ops : List (Op Bool) := [.plain (.append true (ascii "Test Data")), .move false true]
  have hops : Guarded step Allowed (fun _ => Buffer.new 1024) ops := by decide +kernel
  have hend : (run step (fun _ => Buffer.new 1024) ops).map (fun s => s true) = some movedFrom := by
    decide +kernel
  obtain ⟨s, hs, hmoved⟩ := Option.map_eq_some_iff.mp hend
  exact movedFrom_not_usable (hmoved ▸ h (fun _ => 1024) ops s hops hs true)

end TzzeroHttp.BufferMove
