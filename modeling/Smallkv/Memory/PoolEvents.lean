import Smallkv.Lib.Traced
import Smallkv.Memory.Allocate

/-!
# Memory.PoolEvents — what happens inside of a call

The allocator once more, with reports: of every index into `memory_slot` that is
computed, of every block that is made of bytes of the pool, and of every call of
`fill_slot`. It does what the allocator does (`stepTraced_result`), and what it
reported before an access that goes wrong stays reported.
-/

namespace Smallkv

open Fallible Regions Traced

namespace FreeListAllocate

/-- What is reported. -/
inductive PoolEvent where
  /-- `memory_slot[index]` -/
  | index (index : ℤ)
  /-- bytes of the pool of `s` become a block of the slot -/
  | carve (s : FreeListAllocate) (node : Option Addr) (slot : Fin kSlotNum)
  /-- `fill_slot` is called -/
  | fill (s : FreeListAllocate)

/-- A call is one of `fill_slot`. -/
def PoolEvent.isFill : PoolEvent → Bool
  | .index _ => false
  | .carve _ _ _ => false
  | .fill _ => true

abbrev TracedExec := Traced PoolEvent Fault

def slotAtTraced (index : ℤ) : TracedExec (Fin kSlotNum) := do
  report (.index index)
  lift (slotAt index)

def mountFromPoolTraced (slotIndex : Fin kSlotNum) (s : FreeListAllocate) (i : ℕ) :
    TracedExec FreeListAllocate := do
  let node := s.memPoolStart.map fun a => a.shift (i * blockSize slotIndex)
  report (.carve s node slotIndex)
  let heap ← lift (endList s.heap i node)
  lift ({ s with heap := heap }.mount slotIndex node)

def takeFromPoolTraced (s : FreeListAllocate) (slotIndex : Fin kSlotNum) (cnt : ℕ) :
    TracedExec FreeListAllocate := do
  let s ← (List.range cnt).foldlM (mountFromPoolTraced slotIndex) s
  pure
    { s with
      memPoolStart := s.memPoolStart.map fun a => a.shift (cnt * blockSize slotIndex)
      memPoolSize := s.memPoolSize - cnt * blockSize slotIndex }

def recycleTraced (s : FreeListAllocate) : TracedExec FreeListAllocate :=
  if s.memPoolSize ≥ 8 then do
    let target ← slotAtTraced (getIndex s.memPoolSize)
    let node := s.memPoolStart
    report (.carve s node target)
    let heap ← lift (s.heap.writeNext node (s.memorySlot target))
    let heap ← lift (heap.writeNext (s.memorySlot target) node)
    pure { s with heap := heap, memPoolStart := none, memPoolSize := 0 }
  else pure s

/-- A call for which there is no fuel is one, too. -/
def fillSlotTraced : ℕ → FreeListAllocate → Fin kSlotNum → TracedExec FreeListAllocate
  | 0, s, _ => do
    report (.fill s)
    lift (.error .endless)
  | fuel + 1, s, slotIndex => do
    report (.fill s)
    if s.memPoolSize ≥ kFillBlockCnt * blockSize slotIndex then
      s.takeFromPoolTraced slotIndex kFillBlockCnt
    else if s.memPoolSize ≥ blockSize slotIndex then
      s.takeFromPoolTraced slotIndex (s.memPoolSize.tdiv (blockSize slotIndex)).toNat
    else do
      lift (require .assertion (s.memPoolSize.tmod 8 = 0))
      let s ← s.recycleTraced
      fillSlotTraced fuel s.fillMemPool slotIndex

def fillIfEmptyTraced (s : FreeListAllocate) (slotIndex : Fin kSlotNum) :
    TracedExec FreeListAllocate :=
  if s.memorySlot slotIndex = none then fillSlotTraced 2 s slotIndex else pure s

def allocateTraced (s : FreeListAllocate) (n : ℤ) :
    TracedExec (FreeListAllocate × Option Addr) :=
  if n ≤ 0 then pure (s, none)
  else if n > kMaxObjSize then
    let (heap, chunk) := s.heap.malloc n
    pure ({ s with heap := heap }, some chunk)
  else do
    let slotIndex ← slotAtTraced (getIndex n)
    let s ← s.fillIfEmptyTraced slotIndex
    let ret := s.memorySlot slotIndex
    let next ← lift (s.heap.readNext ret)
    pure ({ s with memorySlot := Function.update s.memorySlot slotIndex next }, ret)

def deallocateTraced (s : FreeListAllocate) (p : Option Addr) (n : ℤ) :
    TracedExec FreeListAllocate :=
  if p = none ∨ n = 0 then pure s
  else if n > kMaxObjSize then do
    let a ← lift (orFail .badAccess p)
    let heap ← lift (s.heap.free a)
    pure { s with heap := heap }
  else do
    let slotIndex ← slotAtTraced (getIndex n)
    lift (s.mount slotIndex p)

/-! ## The allocator without its reports -/

variable {i : Fin kSlotNum}

@[simp] theorem slotAtTraced_result (index : ℤ) : (slotAtTraced index).result = slotAt index := by
  simp [slotAtTraced]

@[simp] theorem mountFromPoolTraced_result (i : Fin kSlotNum) (s : FreeListAllocate) (n : ℕ) :
    (mountFromPoolTraced i s n).result = mountFromPool i s n := by
  simp [mountFromPoolTraced, mountFromPool]

@[simp] theorem takeFromPoolTraced_result (s : FreeListAllocate) (i : Fin kSlotNum) (cnt : ℕ) :
    (s.takeFromPoolTraced i cnt).result = s.takeFromPool i cnt := by
  simp only [takeFromPoolTraced, takeFromPool, bind_result,
    foldlM_result (mountFromPoolTraced_result i), pure_result, pure_eq_ok]

@[simp] theorem recycleTraced_result (s : FreeListAllocate) :
    s.recycleTraced.result = s.recycle := by
  unfold recycleTraced recycle
  split
  · simp only [bind_result, slotAtTraced_result, report_result, lift_result, ok_bind, pure_result,
      pure_eq_ok]
  · rfl

@[simp] theorem fillSlotTraced_result (fuel : ℕ) (s : FreeListAllocate) (i : Fin kSlotNum) :
    (fillSlotTraced fuel s i).result = fillSlot fuel s i := by
  induction fuel generalizing s with
  | zero => rfl
  | succ fuel ih =>
      rw [fillSlotTraced, fillSlot, bind_result, report_result, ok_bind]
      split
      · exact takeFromPoolTraced_result _ _ _
      split
      · exact takeFromPoolTraced_result _ _ _
      · simp only [bind_result, lift_result, recycleTraced_result, ih]

@[simp] theorem fillIfEmptyTraced_result (s : FreeListAllocate) (i : Fin kSlotNum) :
    (s.fillIfEmptyTraced i).result = s.fillIfEmpty i := by
  unfold fillIfEmptyTraced fillIfEmpty
  split
  · exact fillSlotTraced_result _ _ _
  · rfl

@[simp] theorem allocateTraced_result (s : FreeListAllocate) (n : ℤ) :
    (s.allocateTraced n).result = s.allocate n := by
  unfold allocateTraced allocate
  split
  · rfl
  split
  · rfl
  · simp only [bind_result, slotAtTraced_result, fillIfEmptyTraced_result, lift_result, pure_result,
      pure_eq_ok]

@[simp] theorem deallocateTraced_result (s : FreeListAllocate) (p : Option Addr) (n : ℤ) :
    (s.deallocateTraced p n).result = s.deallocate p n := by
  unfold deallocateTraced deallocate
  split
  · rfl
  split
  · simp only [bind_result, lift_result, pure_result, pure_eq_ok]
  · simp only [bind_result, slotAtTraced_result, lift_result]

end FreeListAllocate

namespace Client

open FreeListAllocate

def stepTraced (s : Client) : Op → TracedExec Client
  | .allocate n => do
    let (alloc, p) ← s.alloc.allocateTraced n
    pure ⟨alloc, p.toList.map (Block.mk · n) ++ s.live⟩
  | .deallocate i =>
    match s.live[i]? with
    | none => pure s
    | some b => do
      let alloc ← s.alloc.deallocateTraced (some b.addr) b.n
      pure ⟨alloc, s.live.eraseIdx i⟩
  | .store i words =>
    match s.live[i]? with
    | none => pure s
    | some b => pure { s with alloc.heap.next := b.store words s.alloc.heap.next }

/-- Without its reports it is the call. -/
theorem stepTraced_result (s : Client) (op : Op) : (s.stepTraced op).result = s.step op := by
  cases op with
  | allocate n =>
      simp only [stepTraced, step, bind_result, allocateTraced_result, pure_result, pure_eq_ok]
  | deallocate i =>
      simp only [stepTraced, step]
      cases s.live[i]? with
      | none => rfl
      | some b =>
          simp only [bind_result, deallocateTraced_result, pure_result, pure_eq_ok]
  | store i words =>
      simp only [stepTraced, step]
      cases s.live[i]? with
      | none => rfl
      | some b => rfl

end Client

end Smallkv
