import TzzeroHttp.MemoryPoolSlots

/-! The growth of the memory pool. A block is added only when every slot of every block is in use, so
the number of blocks is determined by the largest number of objects that were live at one time. -/
namespace TzzeroHttp.MemoryPoolGrowth
open MemoryPoolModel MemoryPoolSlots Runs

variable {L : Layout} {s s' : Usage L} {p p' : MemoryPool L}

def Balanced (p : MemoryPool L) : Prop :=
  (p.blocks.map Block.freeCount).sum + p.allocatedCount = p.blocks.length * L.blockSize

theorem take_isSome {b : Block L} (h : Counted b) : b.take.isSome ↔ 0 < b.freeCount := by
  unfold Block.take
  split_ifs with hfree
  · have hmem : false ∈ b.used := by
      rw [h] at hfree
      exact List.count_pos_iff.mp hfree
    simp [hfree, hmem]
  · simp [hfree]

/-- The pool gives out an old slot if any block counts a free one. -/
theorem takeFrom_isSome {bs : List (Block L)} (h : ∀ b ∈ bs, Counted b) :
    (MemoryPool.takeFrom bs).isSome ↔ ∃ b ∈ bs, 0 < b.freeCount := by
  induction bs with
  | nil => simp [MemoryPool.takeFrom]
  | cons b bs ih =>
    have hb := take_isSome (h b (by simp))
    have hbs := ih fun c hc => h c (by simp [hc])
    simp only [MemoryPool.takeFrom, List.mem_cons, exists_eq_or_imp, ← hb, ← hbs]
    cases b.take <;> simp

theorem sum_freeCount_eq_zero {bs : List (Block L)} (h : ¬ ∃ b ∈ bs, 0 < b.freeCount) :
    (bs.map Block.freeCount).sum = 0 := by
  rw [List.sum_eq_zero_iff]
  intro n hn
  obtain ⟨b, hb, rfl⟩ := List.mem_map.mp hn
  by_contra hne
  exact h ⟨b, hb, Nat.pos_of_ne_zero hne⟩

/-- A slot of one block is marked, and its count and the pool's change against each other. -/
theorem Balanced.replace {pre post : List (Block L)} {b : Block L} {i n count : ℕ} {u : Bool}
    (h : Balanced p) (hblocks : p.blocks = pre ++ b :: post)
    (hcount : n + count = b.freeCount + p.allocatedCount) :
    Balanced ⟨pre ++ b.mark i u n :: post, count⟩ := by
  unfold Balanced at h ⊢
  rw [hblocks] at h
  have hmark : (b.mark i u n).freeCount = n := rfl
  simp only [List.map_append, List.map_cons, List.sum_append, List.sum_cons, List.length_append,
    List.length_cons, hmark] at h ⊢
  omega

theorem new_balanced (L : Layout) (data : ℕ) : Balanced (MemoryPool.new L data) := by
  simp [Balanced, MemoryPool.new, MemoryPool.addBlock, Block.new]

/-- The peak of the live objects so far decides how many blocks there are. -/
structure Grown (s : Usage L) (most : ℕ) : Prop where
  exact : Exact s
  balanced : Balanced s.pool
  live : s.live.card ≤ most
  fits : most ≤ s.pool.blocks.length * L.blockSize
  nonempty : 1 ≤ s.pool.blocks.length
  needed : s.pool.blocks.length = 1 ∨ (s.pool.blocks.length - 1) * L.blockSize < most

theorem new_grown (L : Layout) {data : ℕ} (hdata : 0 < data) :
    Grown (⟨MemoryPool.new L data, ∅⟩ : Usage L) 0 :=
  ⟨new_exact L hdata, new_balanced L data, le_rfl, Nat.zero_le _, le_rfl, .inl rfl⟩

variable {most : ℕ}

theorem Grown.keep (h : Grown s most) (hexact : Exact s') (hbalanced : Balanced s'.pool)
    (hlength : s'.pool.blocks.length = s.pool.blocks.length) :
    Grown s' (max most s'.live.card) := by
  have hcard : s'.live.card ≤ s.pool.blocks.length * L.blockSize := by
    unfold Balanced at hbalanced
    rw [hlength] at hbalanced
    have hcount := hexact.count
    omega
  have hfits := h.fits
  refine ⟨hexact, hbalanced, le_max_right _ _, ?_, ?_, ?_⟩
  · rw [hlength]
    exact max_le hfits hcard
  · rw [hlength]
    exact h.nonempty
  · rw [hlength]
    exact h.needed.imp_right fun hlt => hlt.trans_le (le_max_left _ _)

/-- With every slot of every block in use, one block more is needed. -/
theorem Grown.addBlock (h : Grown s most) (hfull : MemoryPool.takeFrom s.pool.blocks = none)
    (hexact : Exact s') (hbalanced : Balanced s'.pool) (hcount : s'.live.card = s.live.card + 1)
    (hlength : s'.pool.blocks.length = s.pool.blocks.length + 1) :
    Grown s' (max most s'.live.card) := by
  have hnone : ¬ ∃ b ∈ s.pool.blocks, 0 < b.freeCount := by
    rw [← takeFrom_isSome h.exact.counted, hfull]
    simp
  have hall : s.live.card = s.pool.blocks.length * L.blockSize := by
    have hbalance := h.balanced
    unfold Balanced at hbalance
    rw [sum_freeCount_eq_zero hnone, h.exact.count, Nat.zero_add] at hbalance
    exact hbalance
  have hfits := h.fits
  have hpos := L.blockSize_pos
  have hmax : max most s'.live.card = s.pool.blocks.length * L.blockSize + 1 := by omega
  rw [hmax]
  refine ⟨hexact, hbalanced, by omega, ?_, by omega, .inr ?_⟩
  · rw [hlength, Nat.add_mul]
    omega
  · rw [hlength, Nat.add_sub_cancel]
    omega

theorem allocate_grown (h : Grown s most) {data : ℕ} (hstep : step s (.allocate data) = some s') :
    Grown s' (max most s'.live.card) := by
  obtain ⟨hnew, hexact⟩ := allocate_exact h.exact hstep
  obtain ⟨-, rfl⟩ := guard_eq_some hstep
  have hcard : (insert (s.pool.allocate data).2 s.live).card = s.live.card + 1 :=
    Finset.card_insert_of_notMem hnew
  cases htake : MemoryPool.takeFrom s.pool.blocks with
  | some r =>
    obtain ⟨bs, ptr⟩ := r
    obtain ⟨pre, b, post, i, hblocks, rfl, -, -, -, hfree⟩ := takeFrom_spec htake
    have hpool : (s.pool.allocate data).1 =
        ⟨pre ++ b.mark i true (b.freeCount - 1) :: post, s.pool.allocatedCount + 1⟩ := by
      simp only [MemoryPool.allocate, htake]
    refine h.keep hexact ?_ ?_
    · simp only [hpool]
      exact h.balanced.replace hblocks (by omega)
    · simp [hpool, hblocks]
  | none =>
    have hpool : (s.pool.allocate data).1 =
        ⟨s.pool.blocks ++ [(Block.new L data).mark 0 true (L.blockSize - 1)],
          s.pool.allocatedCount + 1⟩ := by
      simp only [MemoryPool.allocate, htake]
      rfl
    refine h.addBlock htake hexact ?_ hcard ?_
    · have hpos := L.blockSize_pos
      have hbalanced := h.balanced
      simp only [hpool, Balanced, List.map_append, List.sum_append, List.length_append,
        List.map_cons, List.map_nil, List.sum_cons, List.sum_nil, List.length_singleton, Nat.add_mul,
        Block.mark]
      unfold Balanced at hbalanced
      omega
    · simp [hpool]

theorem deallocate_pool (p : MemoryPool L) (ptr : ℕ) :
    p.deallocate ptr = p ∨ ∃ pre b post, p.blocks = pre ++ b :: post ∧
      b.used[b.index ptr]? = some true ∧ p.deallocate ptr =
        ⟨pre ++ b.mark (b.index ptr) false (b.freeCount + 1) :: post, p.allocatedCount - 1⟩ := by
  unfold MemoryPool.deallocate
  split_ifs with hnull
  · exact .inl rfl
  · cases hfree : MemoryPool.freeIn ptr p.blocks with
    | none => exact .inl rfl
    | some bs =>
      obtain ⟨pre, b, post, hblocks, rfl, -, hused⟩ := freeIn_spec hfree
      exact .inr ⟨pre, b, post, hblocks, hused, rfl⟩

theorem deallocate_grown (h : Grown s most) {ptr : ℕ} (hstep : step s (.deallocate ptr) = some s') :
    Grown s' (max most s'.live.card) := by
  obtain ⟨hexact, -⟩ := deallocate_exact h.exact hstep
  obtain ⟨-, rfl⟩ := guard_eq_some hstep
  rcases deallocate_pool s.pool ptr with hsame | ⟨pre, b, post, hblocks, hused, hpool⟩
  · refine h.keep hexact ?_ ?_
    · simp only [hsame]
      exact h.balanced
    · simp only [hsame]
  · have hlive : 0 < s.pool.allocatedCount := by
      rw [h.exact.count]
      exact Finset.card_pos.mpr ⟨_, (h.exact.marked _).mpr ⟨b, by simp [hblocks], _, hused, rfl⟩⟩
    refine h.keep hexact ?_ ?_
    · simp only [hpool]
      exact h.balanced.replace hblocks (by omega)
    · simp [hpool, hblocks]

theorem step_grown (s : Usage L) (op : Op) (s' : Usage L) (most : ℕ) (h : Grown s most)
    (hstep : step s op = some s') : Grown s' (max most s'.live.card) := by
  cases op with
  | allocate data => exact allocate_grown h hstep
  | deallocate ptr => exact deallocate_grown h hstep

theorem Grown.totalCapacity (h : Grown s most) :
    s.pool.totalCapacity = L.blockSize * max 1 (most ⌈/⌉ L.blockSize) := by
  have hpos := L.blockSize_pos
  have hupper : most ⌈/⌉ L.blockSize ≤ s.pool.blocks.length := by
    rw [ceilDiv_le_iff_le_smul hpos, smul_eq_mul, Nat.mul_comm]
    exact h.fits
  have hblocks : s.pool.blocks.length = max 1 (most ⌈/⌉ L.blockSize) := by
    have hnonempty := h.nonempty
    rcases h.needed with hone | hlt
    · omega
    · have hlower : ¬ most ⌈/⌉ L.blockSize ≤ s.pool.blocks.length - 1 := by
        rw [ceilDiv_le_iff_le_smul hpos, smul_eq_mul, Nat.mul_comm]
        exact not_le.mpr hlt
      omega
  rw [MemoryPool.totalCapacity, hblocks, Nat.mul_comm]

/-- An unused slot of any block is reused before the pool grows. -/
theorem allocate_reuses (h : Exact s) {data : ℕ} {b : Block L} (hb : b ∈ s.pool.blocks)
    (hunused : false ∈ b.used) :
    (s.pool.allocate data).1.totalCapacity = s.pool.totalCapacity ∧
      ∃ c ∈ s.pool.blocks, ∃ i, c.used[i]? = some false ∧ (s.pool.allocate data).2 = c.slot i := by
  have hfree : 0 < b.freeCount := by
    rw [h.counted b hb]
    exact List.count_pos_iff.mpr hunused
  obtain ⟨⟨bs, ptr⟩, htake⟩ := Option.isSome_iff_exists.mp ((takeFrom_isSome h.counted).mpr ⟨b, hb, hfree⟩)
  obtain ⟨pre, c, post, i, hblocks, rfl, -, hold, rfl, -⟩ := takeFrom_spec htake
  simp only [MemoryPool.allocate, htake]
  exact ⟨by simp [MemoryPool.totalCapacity, hblocks], c, by simp [hblocks], i, hold, rfl⟩

/-- After every sequence of calls the capacity is that of as many blocks as the largest number of
objects live at one time needs, and at least one; and an allocation with an unused slot in any block
takes one of these slots and adds no block. -/
theorem capacity_eq_peak (L : Layout) (data : ℕ) (ops : List Op) (s : Usage L) (hdata : 0 < data)
    (hrun : run step ⟨MemoryPool.new L data, ∅⟩ ops = some s) :
    s.pool.totalCapacity = L.blockSize *
        max 1 (peak step (fun s => s.live.card) ⟨MemoryPool.new L data, ∅⟩ ops ⌈/⌉ L.blockSize) ∧
      ∀ data s', step s (.allocate data) = some s' → (∃ b ∈ s.pool.blocks, false ∈ b.used) →
        s'.pool.totalCapacity = s.pool.totalCapacity ∧
          ∃ b ∈ s.pool.blocks, ∃ i, b.used[i]? = some false ∧ (s.pool.allocate data).2 = b.slot i := by
  have h := run_peak (fun _ _ h => h.live) step_grown (new_grown L hdata) hrun
  rw [Nat.zero_max] at h
  refine ⟨h.totalCapacity, fun data s' hstep ⟨b, hb, hunused⟩ => ?_⟩
  obtain ⟨-, rfl⟩ := guard_eq_some hstep
  exact allocate_reuses h.exact hb hunused

/-- Three objects at one time need two blocks of two slots, however many come and go. -/
theorem capacity_eq_peak_reused :
    let L : Layout := ⟨8, 2, by decide, by decide⟩
    let ops : List Op := [.allocate 0, .allocate 0, .allocate 64, .deallocate 40, .deallocate 0,
      .allocate 0, .deallocate 64, .deallocate 32, .allocate 0]
    ∃ s : Usage L, run step ⟨MemoryPool.new L 32, ∅⟩ ops = some s ∧ s.pool.totalCapacity = 4 := by
  intro L ops
  have hrun : (run step (⟨MemoryPool.new L 32, ∅⟩ : Usage L) ops).isSome := by decide
  obtain ⟨s, hs⟩ := Option.isSome_iff_exists.mp hrun
  have hpeak : peak step (fun s => s.live.card) (⟨MemoryPool.new L 32, ∅⟩ : Usage L) ops = 3 := by decide
  refine ⟨s, hs, ?_⟩
  rw [(capacity_eq_peak L 32 ops s (by decide) hs).1, hpeak, Nat.ceilDiv_eq_add_pred_div]
  simp [L]

end TzzeroHttp.MemoryPoolGrowth
