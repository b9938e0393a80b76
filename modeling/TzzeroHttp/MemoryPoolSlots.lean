import TzzeroHttp.MemoryPoolModel

/-! The slots of the memory pool. The used bits, the free counts of the blocks and the pool's own
count agree with the pointers handed out and not yet given back, after every sequence of calls. -/
namespace TzzeroHttp.MemoryPoolSlots
open MemoryPoolModel Runs

variable {L : Layout} {b c : Block L} {ptr : ℕ}

def Holds (b : Block L) (ptr : ℕ) : Prop := ∃ i, b.used[i]? = some true ∧ ptr = b.slot i

def Marked (p : MemoryPool L) (ptr : ℕ) : Prop := ∃ b ∈ p.blocks, Holds b ptr

def Counted (b : Block L) : Prop := b.freeCount = b.used.count false

theorem slot_injective (b : Block L) {i j : ℕ} (h : b.slot i = b.slot j) : i = j := by
  have hmul : L.objectSize * i = L.objectSize * j := Nat.add_left_cancel h
  exact Nat.eq_of_mul_eq_mul_left L.objectSize_pos hmul

theorem lt_of_used {i : ℕ} {u : Bool} (h : b.used[i]? = some u) : i < L.blockSize := by
  rw [← b.used_length]
  exact (List.getElem?_eq_some_iff.mp h).1

theorem slot_contains (b : Block L) {i : ℕ} (h : i < L.blockSize) : b.Contains (b.slot i) := by
  have hlt : L.objectSize * i < L.objectSize * L.blockSize :=
    Nat.mul_lt_mul_of_pos_left h L.objectSize_pos
  unfold Block.Contains Block.finish Block.slot
  omega

theorem Holds.contains (h : Holds b ptr) : b.Contains ptr := by
  obtain ⟨i, hi, rfl⟩ := h
  exact slot_contains b (lt_of_used hi)

theorem Apart.not_contains (h : Apart b c) (hb : b.Contains ptr) : ¬ c.Contains ptr := by
  unfold Apart at h
  unfold Block.Contains at hb ⊢
  omega

theorem Apart.symm (h : Apart b c) : Apart c b := h.elim .inr .inl

/-- A pointer at an object of the block is the address of the slot it is converted to. -/
theorem slot_index (hcontains : b.Contains ptr) (haligned : L.objectSize ∣ ptr - b.data) :
    b.slot (b.index ptr) = ptr ∧ b.index ptr < L.blockSize := by
  have hle := hcontains.1
  have hlt := hcontains.2
  have hmul : L.objectSize * b.index ptr = ptr - b.data := Nat.mul_div_cancel' haligned
  refine ⟨by unfold Block.slot; omega, ?_⟩
  unfold Block.finish Block.slot at hlt
  have hless : L.objectSize * b.index ptr < L.objectSize * L.blockSize := by omega
  exact Nat.lt_of_mul_lt_mul_left hless

theorem mark_apart (i : ℕ) (u : Bool) (n : ℕ) : Apart (b.mark i u n) c ↔ Apart b c := Iff.rfl

theorem apart_mark (i : ℕ) (u : Bool) (n : ℕ) : Apart c (b.mark i u n) ↔ Apart c b := Iff.rfl

theorem mark_holds {i : ℕ} (hi : i < L.blockSize) (u : Bool) (n : ℕ) :
    Holds (b.mark i u n) ptr ↔ if ptr = b.slot i then u = true else Holds b ptr := by
  have hlen : i < b.used.length := by rw [b.used_length]; exact hi
  split_ifs with hptr
  · subst hptr
    constructor
    · rintro ⟨j, hj, hslot⟩
      obtain rfl := slot_injective b hslot
      simpa [Block.mark, List.getElem?_set, hlen] using hj
    · intro hu
      exact ⟨i, by simp [Block.mark, hlen, hu], rfl⟩
  · constructor
    · rintro ⟨j, hj, rfl⟩
      have hne : i ≠ j := fun h => hptr (by rw [h]; rfl)
      exact ⟨j, by simpa [Block.mark, List.getElem?_set, hne] using hj, rfl⟩
    · rintro ⟨j, hj, rfl⟩
      have hne : i ≠ j := fun h => hptr (by rw [h])
      exact ⟨j, by simpa [Block.mark, List.getElem?_set, hne] using hj, rfl⟩

theorem mark_counted {i n : ℕ} {u : Bool} (hb : Counted b) (hi : b.used[i]? = some !u)
    (hn : n + u.toNat = b.freeCount + (!u).toNat) : Counted (b.mark i u n) := by
  obtain ⟨hlt, hget⟩ := List.getElem?_eq_some_iff.mp hi
  have hcount := List.count_set (a := u) (b := false) hlt
  unfold Counted at hb ⊢
  rw [Block.mark, hcount, hget]
  cases u with
  | false =>
    simp only [Bool.not_false, Bool.toNat_false, Bool.toNat_true] at hn ⊢
    simp
    omega
  | true =>
    have hmem : false ∈ b.used := by
      have hget' : b.used[i] = false := hget
      exact hget' ▸ List.getElem_mem hlt
    have hpos : 0 < b.used.count false := List.count_pos_iff.mpr hmem
    simp only [Bool.not_true, Bool.toNat_false, Bool.toNat_true] at hn ⊢
    simp
    omega

theorem take_spec {b' : Block L} (h : b.take = some (b', ptr)) :
    ∃ i, i < L.blockSize ∧ b.used[i]? = some false ∧ ptr = b.slot i ∧
      b' = b.mark i true (b.freeCount - 1) ∧ 0 < b.freeCount := by
  unfold Block.take at h
  split_ifs at h with hfree
  · obtain ⟨i, hi, heq⟩ := Option.map_eq_some_iff.mp h
    obtain ⟨hlt, hget, -⟩ := List.findIdx?_eq_some_iff_getElem.mp hi
    obtain ⟨rfl, rfl⟩ := Prod.mk.inj heq
    refine ⟨i, by rw [← b.used_length]; exact hlt, ?_, rfl, rfl, hfree⟩
    simpa [List.getElem?_eq_some_iff, hlt] using hget

theorem takeFrom_spec {bs bs' : List (Block L)} (h : MemoryPool.takeFrom bs = some (bs', ptr)) :
    ∃ pre b post i, bs = pre ++ b :: post ∧ bs' = pre ++ b.mark i true (b.freeCount - 1) :: post ∧
      i < L.blockSize ∧ b.used[i]? = some false ∧ ptr = b.slot i ∧ 0 < b.freeCount := by
  induction bs generalizing bs' with
  | nil => simp [MemoryPool.takeFrom] at h
  | cons b bs ih =>
    simp only [MemoryPool.takeFrom] at h
    cases htake : b.take with
    | some r =>
      obtain ⟨b', p⟩ := r
      rw [htake] at h
      obtain ⟨rfl, rfl⟩ := Prod.mk.inj (Option.some.inj h)
      obtain ⟨i, hi, hunused, hptr, rfl, hfree⟩ := take_spec htake
      exact ⟨[], b, bs, i, rfl, rfl, hi, hunused, hptr, hfree⟩
    | none =>
      rw [htake] at h
      obtain ⟨r, hr, heq⟩ := Option.map_eq_some_iff.mp h
      obtain ⟨rfl, rfl⟩ := Prod.mk.inj heq
      obtain ⟨pre, c, post, i, rfl, hr₁, hrest⟩ := ih hr
      exact ⟨b :: pre, c, post, i, rfl, by simp [hr₁], hrest⟩

theorem free_spec {b' : Block L} (h : b.free ptr = some b') :
    b.used[b.index ptr]? = some true ∧ b' = b.mark (b.index ptr) false (b.freeCount + 1) := by
  unfold Block.free at h
  split_ifs at h with hused
  exact ⟨hused, (Option.some.inj h).symm⟩

theorem freeIn_spec {bs bs' : List (Block L)} (h : MemoryPool.freeIn ptr bs = some bs') :
    ∃ pre b post, bs = pre ++ b :: post ∧
      bs' = pre ++ b.mark (b.index ptr) false (b.freeCount + 1) :: post ∧
      b.Contains ptr ∧ b.used[b.index ptr]? = some true := by
  induction bs generalizing bs' with
  | nil => simp [MemoryPool.freeIn] at h
  | cons b bs ih =>
    simp only [MemoryPool.freeIn] at h
    split_ifs at h with hcontains
    · obtain ⟨b', hb', rfl⟩ := Option.map_eq_some_iff.mp h
      obtain ⟨hused, rfl⟩ := free_spec hb'
      exact ⟨[], b, bs, rfl, rfl, hcontains, hused⟩
    · obtain ⟨r, hr, rfl⟩ := Option.map_eq_some_iff.mp h
      obtain ⟨pre, c, post, rfl, rfl, hrest⟩ := ih hr
      exact ⟨b :: pre, c, post, rfl, rfl, hrest⟩

/-- The loop frees nothing only if no block holds the pointer. -/
theorem freeIn_none {bs : List (Block L)} (hapart : bs.Pairwise Apart)
    (h : MemoryPool.freeIn ptr bs = none) : ∀ b ∈ bs, ¬ Holds b ptr := by
  induction bs with
  | nil => simp
  | cons b bs ih =>
    obtain ⟨hb, hbs⟩ := List.pairwise_cons.mp hapart
    simp only [MemoryPool.freeIn] at h
    intro c hc hholds
    split_ifs at h with hcontains
    · rcases List.mem_cons.mp hc with rfl | hc
      · obtain ⟨i, hi, rfl⟩ := hholds
        have hindex : c.index (c.slot i) = i := by
          simp [Block.index, Block.slot, Nat.mul_div_cancel_left _ L.objectSize_pos]
        simp [Block.free, hindex, hi] at h
      · exact Apart.not_contains (hb c hc) hcontains hholds.contains
    · rcases List.mem_cons.mp hc with rfl | hc
      · exact hcontains hholds.contains
      · exact ih hbs (by simpa using h) c hc hholds

/-- The bookkeeping of a pool in use: the arrays are apart and not at null, the blocks count their
free slots, the used slots are the live pointers, and the pool counts these. -/
structure Exact (s : Usage L) : Prop where
  apart : s.pool.blocks.Pairwise Apart
  placed : ∀ b ∈ s.pool.blocks, 0 < b.data
  counted : ∀ b ∈ s.pool.blocks, Counted b
  marked : ∀ ptr, ptr ∈ s.live ↔ Marked s.pool ptr
  count : s.pool.allocatedCount = s.live.card

variable {s s' : Usage L} {pre post : List (Block L)} {i n : ℕ} {u : Bool}

/-- The other blocks of the pool do not have the addresses of this one. -/
theorem others_not_hold (hapart : (pre ++ b :: post).Pairwise Apart) (hptr : b.Contains ptr)
    (hc : c ∈ pre ∨ c ∈ post) : ¬ Holds c ptr := by
  obtain ⟨-, htail, hcross⟩ := List.pairwise_append.mp hapart
  have hbc : Apart b c := by
    rcases hc with hc | hc
    · exact (hcross c hc b (by simp)).symm
    · exact (List.pairwise_cons.mp htail).1 c hc
  exact fun hholds => Apart.not_contains hbc hptr hholds.contains

theorem marked_replace (hapart : (pre ++ b :: post).Pairwise Apart) (hi : i < L.blockSize) (m k : ℕ) :
    Marked ⟨pre ++ b.mark i u n :: post, m⟩ ptr ↔
      if ptr = b.slot i then u = true else Marked ⟨pre ++ b :: post, k⟩ ptr := by
  have hmark : Holds (b.mark i u n) ptr ↔ _ := mark_holds hi u n
  simp only [Marked, List.mem_append, List.mem_cons, or_and_right, exists_or, exists_eq_left, hmark]
  split_ifs with hptr
  · subst hptr
    have hother := fun c => others_not_hold (c := c) hapart (slot_contains b hi)
    constructor
    · rintro (⟨c, hc, hholds⟩ | hu | ⟨c, hc, hholds⟩)
      · exact absurd hholds (hother c (.inl hc))
      · exact hu
      · exact absurd hholds (hother c (.inr hc))
    · exact fun hu => .inr (.inl hu)
  · rfl

theorem Exact.replace {live : Finset ℕ} {count : ℕ} (h : Exact s)
    (hblocks : s.pool.blocks = pre ++ b :: post) (hi : b.used[i]? = some !u)
    (hn : n + u.toNat = b.freeCount + (!u).toNat)
    (hlive : ∀ ptr, ptr ∈ live ↔ if ptr = b.slot i then u = true else ptr ∈ s.live)
    (hcount : count = live.card) :
    Exact ⟨⟨pre ++ b.mark i u n :: post, count⟩, live⟩ := by
  have hapart := h.apart
  rw [hblocks] at hapart
  have hmem : ∀ c ∈ pre ++ b.mark i u n :: post, c ∈ s.pool.blocks ∨ c = b.mark i u n := by
    intro c hc
    rw [hblocks]
    simp only [List.mem_append, List.mem_cons] at hc ⊢
    tauto
  have hb : b ∈ s.pool.blocks := by simp [hblocks]
  refine ⟨?_, ?_, ?_, ?_, hcount⟩
  · simpa only [List.pairwise_append, List.pairwise_cons, List.mem_cons, forall_eq_or_imp,
      mark_apart, apart_mark] using hapart
  · intro c hc
    rcases hmem c hc with hc | rfl
    · exact h.placed c hc
    · exact h.placed b hb
  · intro c hc
    rcases hmem c hc with hc | rfl
    · exact h.counted c hc
    · exact mark_counted (h.counted b hb) hi hn
  · intro ptr
    have hold := h.marked ptr
    have hpool : s.pool = ⟨pre ++ b :: post, s.pool.allocatedCount⟩ := by rw [← hblocks]
    rw [hpool] at hold
    rw [hlive ptr, marked_replace hapart (lt_of_used hi), hold]

theorem new_unused (L : Layout) (data i : ℕ) (h : i < L.blockSize) :
    (Block.new L data).used[i]? = some false := by
  simp [Block.new, h]

theorem new_not_holds (L : Layout) (data : ℕ) : ¬ Holds (Block.new L data) ptr := by
  rintro ⟨i, hi, -⟩
  rw [new_unused L data i (lt_of_used hi)] at hi
  cases hi

theorem new_counted (L : Layout) (data : ℕ) : Counted (Block.new L data) := by
  simp [Counted, Block.new]

theorem addBlock_exact (h : Exact s) {data : ℕ} (hfits : Fits s.pool data) :
    Exact ⟨s.pool.addBlock data, s.live⟩ := by
  refine ⟨?_, ?_, ?_, ?_, h.count⟩
  · exact List.pairwise_append.mpr ⟨h.apart, by simp, by simpa using hfits.2⟩
  · intro b hb
    rcases List.mem_append.mp hb with hb | hb
    · exact h.placed b hb
    · rw [List.mem_singleton.mp hb]
      exact hfits.1
  · intro b hb
    rcases List.mem_append.mp hb with hb | hb
    · exact h.counted b hb
    · rw [List.mem_singleton.mp hb]
      exact new_counted L data
  · intro ptr
    rw [h.marked]
    simp [Marked, MemoryPool.addBlock, or_and_right, exists_or, new_not_holds]

/-- An unused slot of a block is not live, and taking it keeps the books. -/
theorem Exact.take (h : Exact s) (hblocks : s.pool.blocks = pre ++ b :: post)
    (hunused : b.used[i]? = some false) (hfree : 0 < b.freeCount) :
    b.slot i ∉ s.live ∧
      Exact ⟨⟨pre ++ b.mark i true (b.freeCount - 1) :: post, s.pool.allocatedCount + 1⟩,
        insert (b.slot i) s.live⟩ := by
  have hslot := slot_contains b (lt_of_used hunused)
  have hnot : b.slot i ∉ s.live := by
    have hapart := h.apart
    rw [h.marked]
    rintro ⟨c, hc, hholds⟩
    rw [hblocks] at hapart hc
    rcases List.mem_append.mp hc with hc | hc
    · exact others_not_hold hapart hslot (.inl hc) hholds
    · rcases List.mem_cons.mp hc with rfl | hc
      · obtain ⟨j, hj, hsame⟩ := hholds
        rw [← slot_injective c hsame, hunused] at hj
        cases hj
      · exact others_not_hold hapart hslot (.inr hc) hholds
  refine ⟨hnot, h.replace hblocks hunused ?_ ?_ ?_⟩
  · simp
    omega
  · intro ptr
    split_ifs with hptr <;> simp [hptr]
  · rw [Finset.card_insert_of_notMem hnot, h.count]

theorem allocate_exact (h : Exact s) {data : ℕ} (hstep : step s (.allocate data) = some s') :
    (s.pool.allocate data).2 ∉ s.live ∧ Exact s' := by
  obtain ⟨hguard, rfl⟩ := guard_eq_some hstep
  cases htake : MemoryPool.takeFrom s.pool.blocks with
  | some r =>
    obtain ⟨bs, ptr⟩ := r
    obtain ⟨pre, b, post, i, hblocks, rfl, -, hunused, rfl, hfree⟩ := takeFrom_spec htake
    simp only [MemoryPool.allocate, htake]
    exact h.take hblocks hunused hfree
  | none =>
    have hfits : Fits s.pool data := by simpa [htake] using hguard
    simp only [MemoryPool.allocate, htake]
    exact (addBlock_exact h hfits).take rfl (new_unused L data 0 L.blockSize_pos) L.blockSize_pos

/-- `deallocate` frees the slot of a live pointer, and does nothing with any other pointer. -/
theorem deallocate_exact (h : Exact s) (hstep : step s (.deallocate ptr) = some s') :
    Exact s' ∧ (ptr ∉ s.live → s'.pool = s.pool) := by
  obtain ⟨hpoints, rfl⟩ := guard_eq_some hstep
  have hsame : ptr ∉ s.live → s.pool.deallocate ptr = s.pool →
      Exact ⟨s.pool.deallocate ptr, s.live.erase ptr⟩ := by
    intro hnot hpool
    rw [hpool, Finset.erase_eq_of_notMem hnot]
    exact h
  by_cases hnull : ptr = 0
  · have hpool : s.pool.deallocate ptr = s.pool := by simp [MemoryPool.deallocate, hnull]
    have hnot : ptr ∉ s.live := by
      rw [h.marked, hnull]
      rintro ⟨b, hb, hholds⟩
      have hle := hholds.contains.1
      have hpos := h.placed b hb
      omega
    exact ⟨hsame hnot hpool, fun _ => hpool⟩
  · cases hfree : MemoryPool.freeIn ptr s.pool.blocks with
    | none =>
      have hpool : s.pool.deallocate ptr = s.pool := by simp [MemoryPool.deallocate, hnull, hfree]
      have hnot : ptr ∉ s.live := by
        rw [h.marked]
        rintro ⟨b, hb, hholds⟩
        exact freeIn_none h.apart hfree b hb hholds
      exact ⟨hsame hnot hpool, fun _ => hpool⟩
    | some bs =>
      obtain ⟨pre, b, post, hblocks, rfl, hcontains, hused⟩ := freeIn_spec hfree
      obtain ⟨hslot, -⟩ := slot_index hcontains (hpoints b (by simp [hblocks]) hcontains)
      have hlive : ptr ∈ s.live := (h.marked ptr).mpr ⟨b, by simp [hblocks], _, hused, hslot.symm⟩
      refine ⟨?_, fun hnot => absurd hlive hnot⟩
      simp only [MemoryPool.deallocate, if_neg hnull, hfree]
      refine h.replace hblocks hused (by simp) ?_ ?_
      · intro q
        rw [hslot]
        split_ifs with hq <;> simp [hq]
      · rw [Finset.card_erase_of_mem hlive, h.count]

theorem new_exact (L : Layout) {data : ℕ} (hdata : 0 < data) :
    Exact (⟨MemoryPool.new L data, ∅⟩ : Usage L) := by
  have hempty : Exact (⟨{}, ∅⟩ : Usage L) := ⟨by simp, by simp, by simp, by simp [Marked], rfl⟩
  exact addBlock_exact hempty ⟨hdata, by simp⟩

theorem step_exact {op : Op} (h : Exact s) (hstep : step s op = some s') : Exact s' := by
  cases op with
  | allocate data => exact (allocate_exact h hstep).2
  | deallocate ptr => exact (deallocate_exact h hstep).1

/-- In every run the used slots are the live pointers, the counts are right, `allocate` returns
no live pointer, and `deallocate` frees the slot it is given if that is live and else nothing. -/
theorem slots_exact (L : Layout) (data : ℕ) (ops : List Op) (s : Usage L) (hdata : 0 < data)
    (hrun : run step ⟨MemoryPool.new L data, ∅⟩ ops = some s) :
    (∀ ptr, Marked s.pool ptr ↔ ptr ∈ s.live) ∧ s.pool.allocatedCount = s.live.card ∧
      (∀ b ∈ s.pool.blocks, b.freeCount = b.used.count false) ∧
      (∀ data s', step s (.allocate data) = some s' → (s.pool.allocate data).2 ∉ s.live) ∧
      ∀ ptr s', step s (.deallocate ptr) = some s' →
        (ptr ∈ s.live → ∀ q, Marked s'.pool q ↔ Marked s.pool q ∧ q ≠ ptr) ∧
          (ptr ∉ s.live → s'.pool = s.pool) := by
  have h : Exact s := run_preserves (fun _ _ _ => step_exact) (new_exact L hdata) hrun
  refine ⟨fun ptr => (h.marked ptr).symm, h.count, h.counted, ?_, ?_⟩
  · intro data s' hstep
    exact (allocate_exact h hstep).1
  · intro ptr s' hstep
    obtain ⟨h', hsame⟩ := deallocate_exact h hstep
    refine ⟨fun _ q => ?_, hsame⟩
    obtain ⟨-, rfl⟩ := guard_eq_some hstep
    rw [← h'.marked, ← h.marked, Finset.mem_erase, and_comm]

/-- Two blocks of two slots: a slot is freed, freed again and taken anew, and null and foreign
pointers are given back. -/
theorem slots_exact_two_blocks :
    let L : Layout := ⟨8, 2, by decide, by decide⟩
    let ops : List Op := [.allocate 0, .allocate 0, .allocate 64, .deallocate 40, .deallocate 40,
      .deallocate 0, .deallocate 7, .allocate 0]
    ∃ s : Usage L, run step ⟨MemoryPool.new L 32, ∅⟩ ops = some s ∧
      s.live = {32, 40, 64} ∧ s.pool.allocatedCount = 3 := by
  intro L ops
  have hrun : (run step (⟨MemoryPool.new L 32, ∅⟩ : Usage L) ops).map Usage.live =
      some {32, 40, 64} := by decide
  obtain ⟨s, hs, hlive⟩ := Option.map_eq_some_iff.mp hrun
  have hcount := (slots_exact L 32 ops s (by decide) hs).2.1
  refine ⟨s, hs, hlive, ?_⟩
  rw [hcount, hlive]
  decide

end TzzeroHttp.MemoryPoolSlots
