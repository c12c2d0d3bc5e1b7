import Smallkv.Base
import Smallkv.Lib.Regions

/-!
# Memory.Allocate — the free-list allocator

Small blocks come from 512 slots, each the head of a list of free blocks of one
size that is threaded through the blocks themselves. An empty slot is filled
from the memory pool, the unused end of the newest chunk. `malloc` never fails
and returns a chunk of its own each time; every access through a pointer is
checked against the chunk it points into. `next` is the first word of whatever
is at an address, and nothing is known of the words of a new chunk. Blocks start
at multiples of 8, so that no two words overlap in part.
-/

namespace Smallkv

open Fallible Regions

/-- `SLOT_NUM`. -/
def kSlotNum : ℕ := 512

/-- `MAX_OBJ_SIZE`. -/
def kMaxObjSize : ℤ := 4 * 1024

/-- `CHUNK_SIZE`. -/
def kChunkSize : ℤ := 4 * 1024 * 1024

/-- `FILL_BLOCK_CNT`. -/
def kFillBlockCnt : ℕ := 10

/-! ## The heap -/

/-- The memory that pointers point into: the word at each address, read as a
`BlockNode`, and the sizes of the chunks that `malloc` returned. -/
structure Heap where
  next : Addr → Option Addr
  chunks : List ℤ

namespace Heap

/-- `malloc(n)`. -/
def malloc (h : Heap) (n : ℤ) : Heap × Addr :=
  ({ h with chunks := h.chunks ++ [n] }, ⟨h.chunks.length, 0⟩)

/-- `free(p)`, for a pointer that `malloc` returned: no byte of the chunk may be
used any more. -/
def free (h : Heap) (p : Addr) : Exec Heap := do
  require .badAccess (p.offset = 0 ∧ p.chunk < h.chunks.length)
  pure { h with chunks := h.chunks.set p.chunk 0 }

/-- A `BlockNode` at the address lies inside its chunk. -/
def Valid (h : Heap) (a : Addr) : Prop := 0 ≤ a.offset ∧ ∃ n ∈ h.chunks[a.chunk]?, a.offset + 8 ≤ n

instance (h : Heap) (a : Addr) : Decidable (h.Valid a) :=
  inferInstanceAs (Decidable (_ ∧ ∃ n ∈ h.chunks[a.chunk]?, a.offset + 8 ≤ n))

/-- `p->next`. -/
def readNext (h : Heap) (p : Option Addr) : Exec (Option Addr) := do
  let a ← orFail .badAccess p
  require .badAccess (h.Valid a)
  pure (h.next a)

/-- `p->next = q`. -/
def writeNext (h : Heap) (p q : Option Addr) : Exec Heap := do
  let a ← orFail .badAccess p
  require .badAccess (h.Valid a)
  pure { h with next := Function.update h.next a q }

end Heap

/-! ## The allocator -/

structure FreeListAllocate where
  memorySlot : Fin kSlotNum → Option Addr
  memPoolStart : Option Addr
  memPoolSize : ℤ
  heap : Heap

namespace FreeListAllocate

/-- The constructor, on a heap without chunks. -/
def new (words : Addr → Option Addr) : FreeListAllocate :=
  let (heap, chunk) := Heap.malloc ⟨words, []⟩ kChunkSize
  { memorySlot := fun _ => none
    memPoolStart := some chunk
    memPoolSize := kChunkSize
    heap := heap }

def getIndex (n : ℤ) : ℤ := (n + 7).tdiv 8 - 1

/-- An index into `memory_slot`. -/
def slotAt (index : ℤ) : Exec (Fin kSlotNum) :=
  if h : 0 ≤ index ∧ index < kSlotNum then .ok ⟨index.toNat, by omega⟩ else .error .badIndex

/-- The size of the blocks of a slot. -/
def blockSize (slotIndex : Fin kSlotNum) : ℤ := (slotIndex + 1) * 8

/-- `node->next = memory_slot[i]; memory_slot[i] = node`. -/
def mount (s : FreeListAllocate) (i : Fin kSlotNum) (node : Option Addr) :
    Exec FreeListAllocate := do
  let heap ← s.heap.writeNext node (s.memorySlot i)
  pure { s with heap := heap, memorySlot := Function.update s.memorySlot i node }

/-- The first block that is mounted is first made the end of a list. -/
def endList (heap : Heap) (i : ℕ) (node : Option Addr) : Exec Heap :=
  if i = 0 then heap.writeNext node none else pure heap

/-- One round of the loops of `fill_slot`. -/
def mountFromPool (slotIndex : Fin kSlotNum) (s : FreeListAllocate) (i : ℕ) :
    Exec FreeListAllocate := do
  let node := s.memPoolStart.map fun a => a.shift (i * blockSize slotIndex)
  let heap ← endList s.heap i node
  { s with heap := heap }.mount slotIndex node

/-- Both loops of `fill_slot`, with the update of the pool behind them. -/
def takeFromPool (s : FreeListAllocate) (slotIndex : Fin kSlotNum) (cnt : ℕ) :
    Exec FreeListAllocate := do
  let s ← run (mountFromPool slotIndex) s (List.range cnt)
  pure
    { s with
      memPoolStart := s.memPoolStart.map fun a => a.shift (cnt * blockSize slotIndex)
      memPoolSize := s.memPoolSize - cnt * blockSize slotIndex }

/-- What is left of the pool is to go to the slot of its size. -/
def recycle (s : FreeListAllocate) : Exec FreeListAllocate :=
  if s.memPoolSize ≥ 8 then do
    let target ← slotAt (getIndex s.memPoolSize)
    let node := s.memPoolStart
    let heap ← s.heap.writeNext node (s.memorySlot target)
    -- the head of the list is made to point to the node, and stays the head
    let heap ← heap.writeNext (s.memorySlot target) node
    pure { s with heap := heap, memPoolStart := none, memPoolSize := 0 }
  else pure s

def fillMemPool (s : FreeListAllocate) : FreeListAllocate :=
  let (heap, chunk) := s.heap.malloc kChunkSize
  { s with heap := heap, memPoolStart := some chunk, memPoolSize := kChunkSize }

/-- `fill_slot` calls itself once the pool was refilled. -/
def fillSlot : ℕ → FreeListAllocate → Fin kSlotNum → Exec FreeListAllocate
  | 0, _, _ => .error .endless
  | fuel + 1, s, slotIndex =>
    if s.memPoolSize ≥ kFillBlockCnt * blockSize slotIndex then
      s.takeFromPool slotIndex kFillBlockCnt
    else if s.memPoolSize ≥ blockSize slotIndex then
      s.takeFromPool slotIndex (s.memPoolSize.tdiv (blockSize slotIndex)).toNat
    else do
      require .assertion (s.memPoolSize.tmod 8 = 0)
      let s ← s.recycle
      fillSlot fuel s.fillMemPool slotIndex

/-- The part of `Allocate` that sees to it that there is a block in the slot. -/
def fillIfEmpty (s : FreeListAllocate) (slotIndex : Fin kSlotNum) : Exec FreeListAllocate :=
  if s.memorySlot slotIndex = none then fillSlot 2 s slotIndex else pure s

/-- `Allocate`, with the pointer it returns. -/
def allocate (s : FreeListAllocate) (n : ℤ) : Exec (FreeListAllocate × Option Addr) :=
  if n ≤ 0 then pure (s, none)
  else if n > kMaxObjSize then
    let (heap, chunk) := s.heap.malloc n
    pure ({ s with heap := heap }, some chunk)
  else do
    let slotIndex ← slotAt (getIndex n)
    let s ← s.fillIfEmpty slotIndex
    let ret := s.memorySlot slotIndex
    let next ← s.heap.readNext ret
    pure ({ s with memorySlot := Function.update s.memorySlot slotIndex next }, ret)

def deallocate (s : FreeListAllocate) (p : Option Addr) (n : ℤ) : Exec FreeListAllocate :=
  if p = none ∨ n = 0 then pure s
  else if n > kMaxObjSize then do
    let a ← orFail .badAccess p
    let heap ← s.heap.free a
    pure { s with heap := heap }
  else do
    let slotIndex ← slotAt (getIndex n)
    s.mount slotIndex p

end FreeListAllocate

/-! ## A client -/

/-- A block in use, with the size it was asked for. -/
structure Block where
  addr : Addr
  n : ℤ

/-- The bytes that the allocator sets aside for the block. -/
def Block.region (b : Block) : Region := ⟨b.addr, (FreeListAllocate.getIndex b.n + 1) * 8⟩

/-- The word at the address has a byte in the block. -/
def Block.Meets (b : Block) (a : Addr) : Prop :=
  a.chunk = b.addr.chunk ∧ b.addr.offset < a.offset + 8 ∧
    a.offset < b.addr.offset + b.region.size

instance (b : Block) (a : Addr) : Decidable (b.Meets a) := inferInstanceAs (Decidable (_ ∧ _ ∧ _))

/-- The words behind writes to the block. -/
def Block.store (b : Block) (words next : Addr → Option Addr) : Addr → Option Addr :=
  fun a => if b.Meets a then words a else next a

/-- An allocator and the blocks that are in use, the newest first. -/
structure Client where
  alloc : FreeListAllocate
  live : List Block

namespace Client

/-- A client allocates, frees one of its blocks (by its place in the list) with
the size it was asked for, and writes what it likes to one of its blocks. -/
inductive Op where
  | allocate (n : ℤ)
  | deallocate (i : ℕ)
  | store (i : ℕ) (words : Addr → Option Addr)

def start (words : Addr → Option Addr) : Client := ⟨.new words, []⟩

/-- One call; a place without a block stands for none. -/
def step (s : Client) : Op → Exec Client
  | .allocate n => do
    let (alloc, p) ← s.alloc.allocate n
    pure ⟨alloc, p.toList.map (Block.mk · n) ++ s.live⟩
  | .deallocate i =>
    match s.live[i]? with
    | none => pure s
    | some b => do
      let alloc ← s.alloc.deallocate (some b.addr) b.n
      pure ⟨alloc, s.live.eraseIdx i⟩
  | .store i words =>
    match s.live[i]? with
    | none => pure s
    | some b => pure { s with alloc.heap.next := b.store words s.alloc.heap.next }

end Client

end Smallkv
