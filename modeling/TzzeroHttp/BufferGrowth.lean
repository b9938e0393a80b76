import TzzeroHttp.BufferQueue

/-! The size of a long-lived buffer. The vector grows from the write index, and only when the
readable bytes and the request do not fit into it at all, so the free room in front of the data is
less than what is asked for. The buffer is the one member of a family; its operations are those of
the byte queue. -/
namespace TzzeroHttp.BufferGrowth
open ByteText BufferModel BufferQueue ListBlock Runs

/-- What `readable_bytes() + len` is at the `ensure_writable_bytes(len)` that the call makes, 0 if
it makes none. `read_fd` appends only what did not fit, after the write index has gone to the end. -/
def request (b : Buffer) : Op Unit → ℕ
  | .append _ data => b.readableBytes + data.length
  | .ensureWritableBytes _ len => b.readableBytes + len
  | .readFd _ (.received data) =>
    if data.length ≤ b.writableBytes then 0
    else { b with writeIndex := b.buffer.length }.readableBytes + (data.length - b.writableBytes)
  | _ => 0

def peak (s : Unit → Buffer) : List (Op Unit) → ℕ
  | [] => 0
  | op :: ops =>
    max (request (s ()) op) (match step s op with
      | some s' => peak s' ops
      | none => 0)

/-- The capacity does not shrink, and grows at most to twice the request. -/
def Grows (b b' : Buffer) (r : ℕ) : Prop :=
  b.capacity ≤ b'.capacity ∧ b'.capacity ≤ max b.capacity (cheapPrepend + 2 * r)

variable {b b' : Buffer}

theorem grows_of_eq (h : b'.capacity = b.capacity) (r : ℕ) : Grows b b' r :=
  ⟨h.ge, h.le.trans (le_max_left _ _)⟩

/-- The read index is below what is asked for when the vector grows: all of its bytes but the
readable ones were not enough. -/
theorem makeSpace_grows (h : b.Valid) {len : ℕ} (hlen : b.writableBytes < len)
    (heq : b.makeSpace len = some b') : Grows b b' (b.readableBytes + len) := by
  have hw := h.write_le
  have hr := h.read_le
  have hwritable := h.writableBytes_eq
  have hreadable := h.readableBytes_eq
  unfold Buffer.makeSpace at heq
  split_ifs at heq with hgrow
  · obtain rfl := Option.some.inj heq
    simp only [Buffer.prependableBytes] at hgrow
    simp only [Grows, Buffer.capacity, length_resize]
    omega
  · simp only [Buffer.prependableBytes] at hgrow
    obtain ⟨v, hv, rfl⟩ := Option.map_eq_some_iff.mp heq
    obtain ⟨hlength, -⟩ := window_copyForward (by omega) (by omega) hv
    exact grows_of_eq (by exact hlength) _

theorem ensureWritableBytes_grows (h : b.Valid) {len : ℕ} (heq : b.ensureWritableBytes len = some b') :
    Grows b b' (b.readableBytes + len) := by
  unfold Buffer.ensureWritableBytes at heq
  split_ifs at heq with hlen
  · exact makeSpace_grows h hlen heq
  · obtain rfl := Option.some.inj heq
    exact grows_of_eq rfl _

theorem append_grows (h : b.Valid) {data : Bytes} (heq : b.append data = some b') :
    Grows b b' (b.readableBytes + data.length) := by
  obtain ⟨b₁, h₁, heq⟩ := Option.bind_eq_some_iff.mp heq
  obtain ⟨v, hv, rfl⟩ := Option.map_eq_some_iff.mp heq
  have hgrows := ensureWritableBytes_grows h h₁
  have hlength : v.length = b₁.buffer.length := blit_length hv
  simpa [Grows, Buffer.capacity, Buffer.hasWritten, hlength] using hgrows

theorem prepend_capacity {data : Bytes} (heq : b.prepend data = some b') : b'.capacity = b.capacity := by
  obtain ⟨v, hv, rfl⟩ := Option.map_eq_some_iff.mp heq
  exact blit_length hv

theorem retrieve_capacity (len : ℕ) : (b.retrieve len).capacity = b.capacity := by
  unfold Buffer.retrieve
  split_ifs <;> rfl

theorem readFd_grows (h : b.Valid) {data : Bytes} (heq : b.readFd (.received data) = some b')
    (i : Unit) : Grows b b' (request b (.readFd i (.received data))) := by
  have hw := h.write_le
  obtain ⟨v, hv, heq⟩ := Option.bind_eq_some_iff.mp heq
  have hlength : v.length = b.buffer.length := blit_length hv
  simp only at heq
  split_ifs at heq with hfits
  · obtain rfl := Option.some.inj heq
    exact grows_of_eq (by exact hlength) _
  · have hvalid : (Buffer.mk v b.readIndex v.length).Valid :=
      ⟨hlength ▸ h.reserved, hlength ▸ h.read_le.trans hw, le_rfl⟩
    have hgrows := append_grows hvalid heq
    simp only [request, if_neg hfits]
    simpa [Grows, Buffer.capacity, Buffer.readableBytes, hlength] using hgrows

theorem step_grows {s s' : Unit → Buffer} {op : Op Unit} (h : (s ()).Valid)
    (hstep : step s op = some s') : Grows (s ()) (s' ()) (request (s ()) op) := by
  cases op with
  | append i data =>
    obtain ⟨b', hb', rfl⟩ := Option.map_eq_some_iff.mp hstep
    simpa [request] using append_grows h hb'
  | prepend i data =>
    obtain ⟨b', hb', rfl⟩ := Option.map_eq_some_iff.mp hstep
    exact grows_of_eq (by simpa using prepend_capacity hb') _
  | retrieve i len =>
    obtain rfl := Option.some.inj hstep
    exact grows_of_eq (by simpa using retrieve_capacity len) _
  | retrieveAll i =>
    obtain rfl := Option.some.inj hstep
    exact grows_of_eq (by simp [Buffer.retrieveAll, Buffer.capacity]) _
  | retrieveAsString i len =>
    obtain rfl := Option.some.inj hstep
    exact grows_of_eq (by simpa [Buffer.retrieveAsString] using retrieve_capacity len) _
  | ensureWritableBytes i len =>
    obtain ⟨b', hb', rfl⟩ := Option.map_eq_some_iff.mp hstep
    simpa [request] using ensureWritableBytes_grows h hb'
  | unwrite i len =>
    obtain rfl := Option.some.inj hstep
    exact grows_of_eq (by simp [Buffer.unwrite, Buffer.capacity]) _
  | readFd i result =>
    obtain ⟨b', hb', rfl⟩ := Option.map_eq_some_iff.mp hstep
    cases result with
    | failed e =>
      obtain rfl := Option.some.inj hb'
      exact grows_of_eq (by simp) _
    | received data => simpa using readFd_grows h hb' i
  | writeFd i result =>
    obtain rfl := Option.some.inj hstep
    cases result with
    | failed e => exact grows_of_eq (by simp [Buffer.writeFd]) _
    | wrote n => exact grows_of_eq (by simpa [Buffer.writeFd] using retrieve_capacity n) _
  | copy i j =>
    obtain rfl := Option.some.inj hstep
    exact grows_of_eq (by simp) _
  | swap i j =>
    obtain rfl := Option.some.inj hstep
    exact grows_of_eq (by simp) _

/-- A run from a buffer in order: the capacity stays below the larger of what it was and twice the
largest request. -/
theorem run_grows {s s' : Unit → Buffer} {q : Unit → Bytes} {ops : List (Op Unit)} (h : Refines s q)
    (hops : Guarded step Allowed s ops) (hrun : run step s ops = some s') :
    Grows (s ()) (s' ()) (peak s ops) := by
  induction ops generalizing s q with
  | nil =>
    obtain rfl := Option.some.inj hrun
    exact grows_of_eq rfl _
  | cons op ops ih =>
    obtain ⟨s₁, h₁, h₂⟩ := run_cons.mp hrun
    obtain ⟨s₂, hs₂, hrefines⟩ := step_refines h hops.1
    obtain rfl := Option.some.inj (hs₂.symm.trans h₁)
    have hfirst := step_grows (h ()).1 h₁
    have hrest := ih hrefines (hops.2 s₂ h₁) h₂
    simp only [peak, h₁]
    unfold Grows at hfirst hrest ⊢
    omega

/-- Over every run of one buffer: the capacity is bounded by its initial value and twice the
largest request, and never decreases. -/
theorem capacity_bounded (initial : ℕ) (ops : List (Op Unit))
    (hops : Guarded step Allowed (fun _ => Buffer.new initial) ops) :
    ∃ s, run step (fun _ => Buffer.new initial) ops = some s ∧
      (s ()).capacity ≤ max (cheapPrepend + initial)
        (cheapPrepend + 2 * peak (fun _ => Buffer.new initial) ops) ∧
      ∀ before after s₁, ops = before ++ after →
        run step (fun _ => Buffer.new initial) before = some s₁ →
        (s₁ ()).capacity ≤ (s ()).capacity := by
  obtain ⟨s, hs, -⟩ := run_refines (new_refines fun _ => initial) hops
  refine ⟨s, hs, ?_, ?_⟩
  · have hgrows := (run_grows (new_refines fun _ => initial) hops hs).2
    simpa [Buffer.new, Buffer.capacity] using hgrows
  · rintro before after s₁ rfl hbefore
    obtain ⟨hfirst, hrest⟩ := guarded_append hbefore |>.mp hops
    obtain ⟨s₂, hs₂, hrefines⟩ := run_refines (new_refines fun _ => initial) hfirst
    obtain rfl := Option.some.inj (hs₂.symm.trans hbefore)
    obtain ⟨s₃, hs₃, hafter⟩ := run_append.mp hs
    obtain rfl := Option.some.inj (hs₃.symm.trans hbefore)
    exact (run_grows hrefines hrest hafter).1

/-- A buffer of two bytes through which nine pass, three at a time: it grows once. -/
theorem capacity_bounded_streaming :
    let ops : List (Op Unit) := [.append () [1, 2, 3], .writeFd () (.wrote 2), .append () [4, 5, 6],
      .writeFd () (.wrote 4), .readFd () (.received [7, 8, 9]), .retrieveAll ()]
    Guarded step Allowed (fun _ => Buffer.new 2) ops ∧ peak (fun _ => Buffer.new 2) ops = 4 ∧
      ∃ s, run step (fun _ => Buffer.new 2) ops = some s ∧ (s ()).capacity ≤ 16 := by
  intro ops
  have hops : Guarded step Allowed (fun _ => Buffer.new 2) ops := by decide
  have hpeak : peak (fun _ => Buffer.new 2) ops = 4 := by decide
  obtain ⟨s, hs, hcapacity, -⟩ := capacity_bounded 2 ops hops
  rw [hpeak] at hcapacity
  exact ⟨hops, hpeak, s, hs, hcapacity⟩

end TzzeroHttp.BufferGrowth
