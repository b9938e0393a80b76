import TzzeroHttp.Runs

/-! The memory pool: a list of blocks, each an array of objects with a used bit for every slot
and a count of the free ones. Addresses are numbers, 0 is the null pointer. Where a new block
lands is the allocator's choice; it hands out ranges that do not overlap. -/
namespace TzzeroHttp.MemoryPoolModel

/-- `sizeof(T)` and `block_size_`. -/
structure Layout where
  objectSize : ℕ
  blockSize : ℕ
  objectSize_pos : 0 < objectSize
  blockSize_pos : 0 < blockSize

variable {L : Layout}

structure Block (L : Layout) where
  data : ℕ
  used : List Bool
  freeCount : ℕ
  used_length : used.length = L.blockSize

namespace Block

def new (L : Layout) (data : ℕ) : Block L :=
  ⟨data, List.replicate L.blockSize false, L.blockSize, List.length_replicate⟩

def slot (b : Block L) (i : ℕ) : ℕ := b.data + L.objectSize * i

def finish (b : Block L) : ℕ := b.slot L.blockSize

/-- The used bit and the count are always written together. -/
def mark (b : Block L) (i : ℕ) (used : Bool) (freeCount : ℕ) : Block L :=
  ⟨b.data, b.used.set i used, freeCount, by rw [List.length_set, b.used_length]⟩

/-- The body of `allocate`'s outer loop: the first unused slot of a block that counts free ones. -/
def take (b : Block L) : Option (Block L × ℕ) :=
  if 0 < b.freeCount then
    (b.used.findIdx? (· == false)).map fun i => (b.mark i true (b.freeCount - 1), b.slot i)
  else none

def Contains (b : Block L) (ptr : ℕ) : Prop := b.data ≤ ptr ∧ ptr < b.finish

instance (b : Block L) (ptr : ℕ) : Decidable (b.Contains ptr) :=
  inferInstanceAs (Decidable (_ ∧ _))

/-- `ptr - block_start`, the difference of two `T*`. -/
def index (b : Block L) (ptr : ℕ) : ℕ := (ptr - b.data) / L.objectSize

/-- The body of `deallocate`'s `if`; nothing to do for a slot that is not used. -/
def free (b : Block L) (ptr : ℕ) : Option (Block L) :=
  if b.used[b.index ptr]? = some true then some (b.mark (b.index ptr) false (b.freeCount + 1)) else none

end Block

structure MemoryPool (L : Layout) where
  blocks : List (Block L) := []
  allocatedCount : ℕ := 0

namespace MemoryPool

/-- `allocate`'s loop over the blocks. -/
def takeFrom : List (Block L) → Option (List (Block L) × ℕ)
  | [] => none
  | b :: bs =>
    match b.take with
    | some (b', ptr) => some (b' :: bs, ptr)
    | none => (takeFrom bs).map fun r => (b :: r.1, r.2)

/-- `deallocate`'s loop over the blocks: it ends at the first block the pointer lies in. -/
def freeIn (ptr : ℕ) : List (Block L) → Option (List (Block L))
  | [] => none
  | b :: bs =>
    if b.Contains ptr then (b.free ptr).map (· :: bs) else (freeIn ptr bs).map (b :: ·)

/-- The array of the new block is at `data`. -/
def addBlock (p : MemoryPool L) (data : ℕ) : MemoryPool L :=
  { p with blocks := p.blocks ++ [Block.new L data] }

def new (L : Layout) (data : ℕ) : MemoryPool L := addBlock {} data

/-- `data` is where a new block would be; the last block of the list is then that new one. -/
def allocate (p : MemoryPool L) (data : ℕ) : MemoryPool L × ℕ :=
  match takeFrom p.blocks with
  | some (blocks, ptr) => (⟨blocks, p.allocatedCount + 1⟩, ptr)
  | none =>
    let block := Block.new L data
    (⟨p.blocks ++ [block.mark 0 true (block.freeCount - 1)], p.allocatedCount + 1⟩, block.slot 0)

def deallocate (p : MemoryPool L) (ptr : ℕ) : MemoryPool L :=
  if ptr = 0 then p
  else match freeIn ptr p.blocks with
    | some blocks => ⟨blocks, p.allocatedCount - 1⟩
    | none => p

def totalCapacity (p : MemoryPool L) : ℕ := p.blocks.length * L.blockSize

end MemoryPool

def Apart (b c : Block L) : Prop := b.finish ≤ c.data ∨ c.finish ≤ b.data

instance (b c : Block L) : Decidable (Apart b c) := inferInstanceAs (Decidable (_ ∨ _))

/-- What the allocator promises of an address for one more block. -/
def Fits (p : MemoryPool L) (data : ℕ) : Prop :=
  0 < data ∧ ∀ b ∈ p.blocks, Apart b (Block.new L data)

instance (p : MemoryPool L) (data : ℕ) : Decidable (Fits p data) := inferInstanceAs (Decidable (_ ∧ _))

/-- A `T*` that lies in a block points at one of its objects. -/
def PointsAt (p : MemoryPool L) (ptr : ℕ) : Prop :=
  ∀ b ∈ p.blocks, b.Contains ptr → L.objectSize ∣ ptr - b.data

instance (p : MemoryPool L) (ptr : ℕ) : Decidable (PointsAt p ptr) :=
  inferInstanceAs (Decidable (∀ b ∈ p.blocks, _ → _))

/-- A pool in use; `live` are the pointers that `allocate` returned and that were not passed to
`deallocate` since. -/
structure Usage (L : Layout) where
  pool : MemoryPool L
  live : Finset ℕ := ∅

inductive Op
  | allocate (data : ℕ)
  | deallocate (ptr : ℕ)

def step (s : Usage L) : Op → Option (Usage L)
  | .allocate data =>
    if (MemoryPool.takeFrom s.pool.blocks).isSome ∨ Fits s.pool data then
      some ⟨(s.pool.allocate data).1, insert (s.pool.allocate data).2 s.live⟩
    else none
  | .deallocate ptr =>
    if PointsAt s.pool ptr then some ⟨s.pool.deallocate ptr, s.live.erase ptr⟩ else none

end TzzeroHttp.MemoryPoolModel
