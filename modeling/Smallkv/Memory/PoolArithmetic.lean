import Smallkv.Memory.FreeLists
import Smallkv.Memory.PoolEvents

/-!
# Memory.PoolArithmetic — the numbers of the allocator stay in range

Whatever has become of the lists, the pool is the end of a chunk of 4 MB, of a
size that is a multiple of 8 (`PoolInRange`). So the assertion of `fill_slot`
holds, blocks are cut off the pool inside of it, and a slot that finds no block
in the pool finds ten in the next one: `fill_slot` calls itself at most once. This
is said of the events that a call reports, also of one that goes wrong; and all
that can go wrong is an access through a pointer.
-/

namespace Smallkv

open Fallible Regions Traced

namespace FreeListAllocate

variable {s s' : FreeListAllocate} {i : Fin kSlotNum}

/-- The pool is what is left of a chunk, in multiples of 8 bytes. -/
structure PoolInRange (s : FreeListAllocate) : Prop where
  aligned : s.memPoolSize % 8 = 0
  nonneg : 0 ≤ s.memPoolSize
  le : s.memPoolSize ≤ 4 * 1024 * 1024
  atEnd : ∃ p, s.memPoolStart = some p ∧ p.offset + s.memPoolSize = 4 * 1024 * 1024

/-- The number of blocks that a call of `fill_slot` cuts off the pool it finds. -/
def carveCount (s : FreeListAllocate) (i : Fin kSlotNum) : ℕ :=
  if s.memPoolSize ≥ kFillBlockCnt * blockSize i then kFillBlockCnt
  else if s.memPoolSize ≥ blockSize i then (s.memPoolSize.tdiv (blockSize i)).toNat
  else 0

theorem PoolInRange.tmod (h : PoolInRange s) : s.memPoolSize.tmod 8 = 0 := by
  rw [Int.tmod_eq_emod_of_nonneg h.nonneg]
  exact h.aligned

theorem fillSlot_succ (fuel : ℕ) (s : FreeListAllocate) (i : Fin kSlotNum) :
    fillSlot (fuel + 1) s i =
      if s.memPoolSize ≥ blockSize i then s.takeFromPool i (s.carveCount i)
      else (do
        require .assertion (s.memPoolSize.tmod 8 = 0)
        let t ← s.recycle
        fillSlot fuel t.fillMemPool i) := by
  have hpos := blockSize_pos i
  rw [fillSlot, carveCount]
  by_cases hten : s.memPoolSize ≥ kFillBlockCnt * blockSize i
  · have hone : s.memPoolSize ≥ blockSize i := by
      unfold kFillBlockCnt at hten
      omega
    rw [if_pos hten, if_pos hone, if_pos hten]
  · rw [if_neg hten, if_neg hten]
    by_cases hone : s.memPoolSize ≥ blockSize i
    · rw [if_pos hone, if_pos hone, if_pos hone]
    · rw [if_neg hone, if_neg hone]

/-! ## The pool -/

/-- As many blocks as fit. -/
theorem tdiv_fits {m b : ℤ} (hm : 0 ≤ m) (hb : 0 < b) : ((m.tdiv b).toNat : ℤ) * b ≤ m := by
  have hmul := Int.ediv_mul_le m hb.ne'
  have hdiv := Int.ediv_nonneg hm hb.le
  rwa [Int.tdiv_eq_ediv_of_nonneg hm, Int.toNat_of_nonneg hdiv]

theorem carveCount_fits (hnonneg : 0 ≤ s.memPoolSize) :
    s.carveCount i * blockSize i ≤ s.memPoolSize := by
  unfold carveCount
  split
  · rename_i hten
    exact hten
  split
  · exact tdiv_fits hnonneg (by linarith [blockSize_pos i])
  · simpa using hnonneg

/-- Blocks that are cut off the pool are in it. -/
theorem carved_within {cnt j : ℕ} (hfits : cnt * blockSize i ≤ s.memPoolSize) (hj : j < cnt)
    (p : Addr) :
    Region.Within ⟨p.shift (j * blockSize i), blockSize i⟩ ⟨p, s.memPoolSize⟩ := by
  have hpos := blockSize_pos i
  have hstart : 0 ≤ (j : ℤ) * blockSize i := by positivity
  have hend : ((j : ℤ) + 1) * blockSize i ≤ cnt * blockSize i := by
    apply mul_le_mul_of_nonneg_right _ (by omega)
    exact_mod_cast hj
  rw [add_mul, one_mul] at hend
  refine ⟨rfl, ?_, ?_⟩
  · simp only [Addr.shift]
    omega
  · simp only [Addr.shift]
    omega

theorem mount_pool {node : Option Addr} (h : s.mount i node = .ok s') :
    s'.memPoolStart = s.memPoolStart ∧ s'.memPoolSize = s.memPoolSize := by
  rcases bind_eq_ok.1 h with ⟨heap, -, h⟩
  cases h
  exact ⟨rfl, rfl⟩

/-- In the loops of `fill_slot` the pool stays what it is. -/
def SamePool (s t : FreeListAllocate) : Prop :=
  t.memPoolStart = s.memPoolStart ∧ t.memPoolSize = s.memPoolSize

theorem SamePool.mountFromPool {t t' : FreeListAllocate} {n : ℕ} (h : SamePool s t)
    (hstep : mountFromPool i t n = .ok t') : SamePool s t' := by
  rcases bind_eq_ok.1 hstep with ⟨heap, -, hmount⟩
  rcases mount_pool hmount with ⟨hstart, hsize⟩
  exact ⟨hstart.trans h.1, hsize.trans h.2⟩

theorem takeFromPool_pool {cnt : ℕ} (h : s.takeFromPool i cnt = .ok s') :
    s'.memPoolStart = s.memPoolStart.map (fun a => a.shift (cnt * blockSize i)) ∧
      s'.memPoolSize = s.memPoolSize - cnt * blockSize i := by
  rcases bind_eq_ok.1 h with ⟨t, hloop, h⟩
  cases h
  have hpool : SamePool s t :=
    run_invariant (SamePool s) (fun _ _ _ ht hstep => ht.mountFromPool hstep) ⟨rfl, rfl⟩ hloop
  exact ⟨by rw [hpool.1], by rw [hpool.2]⟩

/-- A new chunk is the pool, whatever there was. -/
theorem fillMemPool_inRange (s : FreeListAllocate) : PoolInRange s.fillMemPool where
  aligned := rfl
  nonneg := Int.natCast_nonneg (4 * 1024 * 1024)
  le := le_refl (4 * 1024 * 1024 : ℤ)
  atEnd := ⟨_, rfl, zero_add _⟩

theorem PoolInRange.takeFromPool (h : PoolInRange s)
    (hrun : s.takeFromPool i (s.carveCount i) = .ok s') : PoolInRange s' := by
  rcases takeFromPool_pool hrun with ⟨hstart, hsize⟩
  rcases h.atEnd with ⟨p, hp, hend⟩
  have hfits := carveCount_fits (i := i) h.nonneg
  have hpos := blockSize_pos i
  have haligned := h.aligned
  have hle := h.le
  have htaken : 0 ≤ (s.carveCount i : ℤ) * blockSize i := by positivity
  constructor
  · rw [hsize, blockSize, ← mul_assoc]
    omega
  · omega
  · omega
  · refine ⟨p.shift (s.carveCount i * blockSize i), by rw [hstart, hp, Option.map_some], ?_⟩
    simp only [Addr.shift]
    omega

theorem PoolInRange.fillSlot (h : PoolInRange s) {fuel : ℕ} (hrun : fillSlot fuel s i = .ok s') :
    PoolInRange s' := by
  induction fuel generalizing s with
  | zero => cases hrun
  | succ fuel ih =>
      rw [fillSlot_succ] at hrun
      -- the pool is cut, or is a new chunk when `fill_slot` is called again
      split at hrun
      · exact h.takeFromPool hrun
      · rcases bind_eq_ok.1 hrun with ⟨_, -, hrun⟩
        rcases bind_eq_ok.1 hrun with ⟨t, -, hrun⟩
        exact ih t.fillMemPool_inRange hrun

theorem PoolInRange.allocate (h : PoolInRange s) {n : ℤ} {p : Option Addr}
    (hrun : s.allocate n = .ok (s', p)) : PoolInRange s' := by
  unfold FreeListAllocate.allocate at hrun
  split at hrun
  · cases hrun
    exact h
  split at hrun
  · cases hrun
    exact ⟨h.aligned, h.nonneg, h.le, h.atEnd⟩
  rcases bind_eq_ok.1 hrun with ⟨i, -, hrun⟩
  rcases bind_eq_ok.1 hrun with ⟨t, hfill, hrun⟩
  rcases bind_eq_ok.1 hrun with ⟨next, -, hrun⟩
  cases hrun
  have ht : PoolInRange t := by
    unfold fillIfEmpty at hfill
    split at hfill
    · exact h.fillSlot hfill
    · cases hfill
      exact h
  exact ⟨ht.aligned, ht.nonneg, ht.le, ht.atEnd⟩

theorem PoolInRange.deallocate (h : PoolInRange s) {p : Option Addr} {n : ℤ}
    (hrun : s.deallocate p n = .ok s') : PoolInRange s' := by
  unfold FreeListAllocate.deallocate at hrun
  split at hrun
  · cases hrun
    exact h
  split at hrun
  · rcases bind_eq_ok.1 hrun with ⟨a, -, hrun⟩
    rcases bind_eq_ok.1 hrun with ⟨heap, -, hrun⟩
    cases hrun
    exact ⟨h.aligned, h.nonneg, h.le, h.atEnd⟩
  · rcases bind_eq_ok.1 hrun with ⟨i, -, hrun⟩
    rcases mount_pool hrun with ⟨hstart, hsize⟩
    exact ⟨hsize ▸ h.aligned, hsize ▸ h.nonneg, hsize ▸ h.le, by rw [hstart, hsize]; exact h.atEnd⟩

/-! ## Faults -/

theorem writeNext_fails (heap : Heap) (p q : Option Addr) :
    FailsOnly .badAccess (heap.writeNext p q) :=
  (FailsOnly.orFail _ _).bind fun _ _ => (FailsOnly.require _ _).bind fun _ _ => .ok _ _

theorem mount_fails (s : FreeListAllocate) (i : Fin kSlotNum) (node : Option Addr) :
    FailsOnly .badAccess (s.mount i node) :=
  (writeNext_fails _ _ _).bind fun _ _ => .ok _ _

theorem takeFromPool_fails (s : FreeListAllocate) (i : Fin kSlotNum) (cnt : ℕ) :
    FailsOnly .badAccess (s.takeFromPool i cnt) := by
  have hstep : ∀ (t : FreeListAllocate) (n : ℕ), FailsOnly .badAccess (mountFromPool i t n) := by
    intro t n
    unfold mountFromPool endList
    refine FailsOnly.bind ?_ fun _ _ => mount_fails _ _ _
    split
    · exact writeNext_fails _ _ _
    · exact .ok _ _
  exact (FailsOnly.run hstep s _).bind fun _ _ => .ok _ _

/-- What is recycled is a block of less than a slot's size, which has a slot, too. -/
theorem recycle_fails (hsmall : s.memPoolSize ≤ 4096) : FailsOnly .badAccess s.recycle := by
  unfold recycle
  split
  · rename_i hleft
    rcases slotAt_of_small (by omega) hsmall with ⟨target, htarget, -⟩
    rw [htarget, ok_bind]
    apply (writeNext_fails _ _ _).bind
    intro heap _
    exact (writeNext_fails _ _ _).bind fun _ _ => .ok _ _
  · exact .ok _ _

/-- In a new chunk there are blocks for every slot. -/
theorem blockSize_le_fillMemPool (s : FreeListAllocate) (i : Fin kSlotNum) :
    s.fillMemPool.memPoolSize ≥ blockSize i := by
  have hle := blockSize_le i
  show kChunkSize ≥ blockSize i
  unfold kChunkSize
  omega

/-- Neither does the assertion of `fill_slot` fail, nor does the second call call a
third one. -/
theorem PoolInRange.fillSlot_fails (h : PoolInRange s) (i : Fin kSlotNum) :
    FailsOnly .badAccess (FreeListAllocate.fillSlot 2 s i) := by
  rw [fillSlot_succ]
  split
  · exact takeFromPool_fails _ _ _
  · rename_i hless
    have hle := blockSize_le i
    rw [require_of h.tmod, ok_bind]
    apply (recycle_fails (by omega)).bind
    intro t _
    -- the second call finds a whole chunk
    rw [fillSlot_succ, if_pos (blockSize_le_fillMemPool t i)]
    exact takeFromPool_fails _ _ _

theorem PoolInRange.fillIfEmpty_fails (h : PoolInRange s) (i : Fin kSlotNum) :
    FailsOnly .badAccess (s.fillIfEmpty i) := by
  unfold FreeListAllocate.fillIfEmpty
  split
  · exact h.fillSlot_fails i
  · exact .ok _ _

theorem PoolInRange.allocate_fails (h : PoolInRange s) {n : ℤ} (hn : 1 ≤ n) :
    FailsOnly .badAccess (s.allocate n) := by
  unfold FreeListAllocate.allocate
  split
  · exact .ok _ _
  split
  · exact .ok _ _
  rename_i hmax
  rcases slotAt_of_small hn (not_lt.1 hmax) with ⟨i, hi, -⟩
  rw [hi, ok_bind]
  apply (h.fillIfEmpty_fails i).bind
  intro t _
  refine FailsOnly.bind ?_ fun _ _ => .ok _ _
  exact (FailsOnly.orFail _ _).bind fun _ _ => (FailsOnly.require _ _).bind fun _ _ => .ok _ _

theorem deallocate_fails (s : FreeListAllocate) (p : Option Addr) {n : ℤ} (hn : 1 ≤ n) :
    FailsOnly .badAccess (s.deallocate p n) := by
  unfold FreeListAllocate.deallocate
  split
  · exact .ok _ _
  split
  · apply (FailsOnly.orFail _ _).bind
    intro a _
    refine FailsOnly.bind ?_ fun _ _ => .ok _ _
    exact (FailsOnly.require _ _).bind fun _ _ => .ok _ _
  · rename_i hmax
    rcases slotAt_of_small hn (not_lt.1 hmax) with ⟨i, hi, -⟩
    rw [hi, ok_bind]
    exact mount_fails _ _ _

/-! ## Events -/

/-- The index is that of a slot, the block is one of the slot's size and in the pool,
the pool that `fill_slot` finds is in range. -/
def PoolEvent.InRange : PoolEvent → Prop
  | .index n => 0 ≤ n ∧ n ≤ 511
  | .carve s node slot => ∃ a p, node = some a ∧ s.memPoolStart = some p ∧
      Region.Within ⟨a, blockSize slot⟩ ⟨p, s.memPoolSize⟩
  | .fill s => PoolInRange s

theorem getIndex_inRange {n : ℤ} (h1 : 1 ≤ n) (hmax : n ≤ kMaxObjSize) :
    0 ≤ getIndex n ∧ getIndex n ≤ 511 := by
  unfold kMaxObjSize at hmax
  rw [getIndex, Int.tdiv_eq_ediv_of_nonneg (by omega)]
  omega

theorem slotAtTraced_reports {P : PoolEvent → Prop} {index : ℤ} (h : P (.index index)) :
    Reports P (slotAtTraced index) :=
  Reports.bind (Reports.report h) fun _ _ => .lift P _

theorem mountFromPoolTraced_reports {P : PoolEvent → Prop} {n : ℕ}
    (h : P (.carve s (s.memPoolStart.map fun a => a.shift (n * blockSize i)) i)) :
    Reports P (mountFromPoolTraced i s n) :=
  Reports.bind (Reports.report h) fun _ _ => Reports.bind (.lift P _) fun _ _ => .lift P _

theorem takeFromPoolTraced_reports {P : PoolEvent → Prop} {cnt : ℕ}
    (h : ∀ t, SamePool s t → ∀ n < cnt,
      P (.carve t (t.memPoolStart.map fun a => a.shift (n * blockSize i)) i)) :
    Reports P (s.takeFromPoolTraced i cnt) := by
  refine Reports.bind (Reports.foldlM (SamePool s) ?_ ?_ ⟨rfl, rfl⟩) fun _ _ => .pure P _
  · intro t ht n hn
    exact mountFromPoolTraced_reports (h t ht n (List.mem_range.1 hn))
  · intro t ht n _ t' hstep
    rw [mountFromPoolTraced_result] at hstep
    exact ht.mountFromPool hstep

theorem recycleTraced_reports {P : PoolEvent → Prop}
    (hindex : s.memPoolSize ≥ 8 → P (.index (getIndex s.memPoolSize)))
    (hcarve : s.memPoolSize ≥ 8 → ∀ target, slotAt (getIndex s.memPoolSize) = .ok target →
      P (.carve s s.memPoolStart target)) : Reports P s.recycleTraced := by
  unfold recycleTraced
  split
  · rename_i hleft
    refine (slotAtTraced_reports (hindex hleft)).bind fun target htarget => ?_
    rw [slotAtTraced_result] at htarget
    refine Reports.bind (Reports.report (hcarve hleft target htarget)) fun _ _ => ?_
    refine (Reports.lift _ _).bind fun _ _ => ?_
    exact (Reports.lift _ _).bind fun _ _ => .pure _ _
  · exact .pure _ _

theorem deallocateTraced_reports {P : PoolEvent → Prop} (p : Option Addr) {n : ℤ}
    (hindex : n ≤ kMaxObjSize → P (.index (getIndex n))) : Reports P (s.deallocateTraced p n) := by
  unfold deallocateTraced
  split
  · exact .pure _ _
  split
  · refine (Reports.lift _ _).bind fun _ _ => ?_
    exact (Reports.lift _ _).bind fun _ _ => .pure _ _
  · rename_i hmax
    exact (slotAtTraced_reports (hindex (not_lt.1 hmax))).bind fun i _ => .lift _ _

theorem PoolInRange.takeFromPoolTraced_inRange (h : PoolInRange s) {cnt : ℕ}
    (hfits : cnt * blockSize i ≤ s.memPoolSize) :
    Reports PoolEvent.InRange (s.takeFromPoolTraced i cnt) := by
  apply takeFromPoolTraced_reports
  rintro t ⟨hstart, hsize⟩ n hn
  rcases h.atEnd with ⟨p, hp, -⟩
  have ht : t.memPoolStart = some p := hstart.trans hp
  refine ⟨p.shift (n * blockSize i), p, by rw [ht, Option.map_some], ht, ?_⟩
  rw [← hsize] at hfits
  exact carved_within hfits hn p

/-- A leftover of a size that is a multiple of 8 is a whole block. -/
theorem PoolInRange.recycleTraced_inRange (h : PoolInRange s) (hsmall : s.memPoolSize ≤ 4096) :
    Reports PoolEvent.InRange s.recycleTraced := by
  have haligned := h.aligned
  rcases h.atEnd with ⟨p, hp, -⟩
  refine recycleTraced_reports (fun hleft => getIndex_inRange (by omega) hsmall) ?_
  intro hleft target htarget
  have hblock : blockSize target = s.memPoolSize := by
    rw [blockSize, slotAt_ok htarget, getIndex, Int.tdiv_eq_ediv_of_nonneg (by omega)]
    omega
  exact ⟨p, p, hp, hp, rfl, le_rfl, by rw [hblock]⟩

theorem PoolInRange.fillSlotTraced_inRange (h : PoolInRange s) (fuel : ℕ) (i : Fin kSlotNum) :
    Reports PoolEvent.InRange (fillSlotTraced fuel s i) := by
  have hfill : PoolEvent.InRange (.fill s) := h
  induction fuel generalizing s with
  | zero => exact Reports.bind (Reports.report hfill) fun _ _ => .lift _ _
  | succ fuel ih =>
      refine Reports.bind (Reports.report hfill) fun _ _ => ?_
      split
      · rename_i hten
        exact h.takeFromPoolTraced_inRange hten
      split
      · exact h.takeFromPoolTraced_inRange (tdiv_fits h.nonneg (by linarith [blockSize_pos i]))
      · rename_i hless
        have hle := blockSize_le i
        refine (Reports.lift _ _).bind fun _ _ => ?_
        refine (h.recycleTraced_inRange (by omega)).bind fun t _ => ?_
        exact ih t.fillMemPool_inRange t.fillMemPool_inRange

theorem PoolInRange.fillIfEmptyTraced_inRange (h : PoolInRange s) (i : Fin kSlotNum) :
    Reports PoolEvent.InRange (s.fillIfEmptyTraced i) := by
  unfold fillIfEmptyTraced
  split
  · exact h.fillSlotTraced_inRange 2 i
  · exact .pure _ _

theorem PoolInRange.allocateTraced_inRange (h : PoolInRange s) {n : ℤ} (hn : 1 ≤ n) :
    Reports PoolEvent.InRange (s.allocateTraced n) := by
  unfold allocateTraced
  split
  · exact .pure _ _
  split
  · exact .pure _ _
  rename_i hmax
  have hindex : PoolEvent.InRange (.index (getIndex n)) := getIndex_inRange hn (not_lt.1 hmax)
  refine (slotAtTraced_reports hindex).bind fun i _ => ?_
  refine (h.fillIfEmptyTraced_inRange i).bind fun t _ => ?_
  exact (Reports.lift _ _).bind fun _ _ => .pure _ _

theorem deallocateTraced_inRange (s : FreeListAllocate) (p : Option Addr) {n : ℤ} (hn : 1 ≤ n) :
    Reports PoolEvent.InRange (s.deallocateTraced p n) :=
  deallocateTraced_reports p fun hmax => getIndex_inRange hn hmax

/-! ## Calls of `fill_slot` -/

theorem takeFromPoolTraced_fills (s : FreeListAllocate) (i : Fin kSlotNum) (cnt : ℕ) :
    count PoolEvent.isFill (s.takeFromPoolTraced i cnt) = 0 :=
  count_eq_zero (takeFromPoolTraced_reports fun _ _ _ _ => rfl)

theorem recycleTraced_fills (s : FreeListAllocate) : count PoolEvent.isFill s.recycleTraced = 0 :=
  count_eq_zero (recycleTraced_reports (fun _ => rfl) fun _ _ _ => rfl)

/-- With a block in the pool there is no other call. -/
theorem fillSlotTraced_fills_once (fuel : ℕ) (hblock : s.memPoolSize ≥ blockSize i) :
    count PoolEvent.isFill (fillSlotTraced fuel s i) ≤ 1 := by
  cases fuel with
  | zero => exact count_bind_le (m := 1) (n := 0) le_rfl fun _ _ => le_rfl
  | succ fuel =>
      refine count_bind_le (m := 1) (n := 0) le_rfl fun _ _ => ?_
      rw [if_pos hblock]
      split
      · exact (takeFromPoolTraced_fills _ _ _).le
      · exact (takeFromPoolTraced_fills _ _ _).le

theorem fillSlotTraced_fills (fuel : ℕ) (s : FreeListAllocate) (i : Fin kSlotNum) :
    count PoolEvent.isFill (fillSlotTraced fuel s i) ≤ 2 := by
  cases fuel with
  | zero => exact count_bind_le (m := 1) (n := 1) le_rfl fun _ _ => Nat.zero_le _
  | succ fuel =>
      refine count_bind_le (m := 1) (n := 1) le_rfl fun _ _ => ?_
      split
      · rw [takeFromPoolTraced_fills]
        exact Nat.zero_le _
      split
      · rw [takeFromPoolTraced_fills]
        exact Nat.zero_le _
      · refine count_bind_le (m := 0) (n := 1) le_rfl fun _ _ => ?_
        refine count_bind_le (m := 0) (n := 1) (recycleTraced_fills s).le fun t _ => ?_
        exact fillSlotTraced_fills_once fuel (blockSize_le_fillMemPool t i)

theorem allocateTraced_fills (s : FreeListAllocate) (n : ℤ) :
    count PoolEvent.isFill (s.allocateTraced n) ≤ 2 := by
  unfold allocateTraced
  split
  · exact Nat.zero_le _
  split
  · exact Nat.zero_le _
  refine count_bind_le (m := 0) (n := 2) ?_ fun i _ => ?_
  · exact (count_eq_zero (slotAtTraced_reports rfl)).le
  refine count_bind_le (m := 2) (n := 0) ?_ fun t _ => ?_
  · unfold fillIfEmptyTraced
    split
    · exact fillSlotTraced_fills 2 s i
    · exact Nat.zero_le _
  · exact count_bind_le (m := 0) (n := 0) le_rfl fun _ _ => le_rfl

theorem deallocateTraced_fills (s : FreeListAllocate) (p : Option Addr) (n : ℤ) :
    count PoolEvent.isFill (s.deallocateTraced p n) = 0 :=
  count_eq_zero (deallocateTraced_reports p fun _ => rfl)

end FreeListAllocate

/-! ## Calls -/

namespace Client

open FreeListAllocate

/-- Blocks of at least one byte are asked for. -/
def Op.Positive : Op → Prop
  | .allocate n => 1 ≤ n
  | .deallocate _ => True
  | .store _ _ => True

/-- The numbers of a call are in range: the pool before it, whatever it reports on its
way, the depth of the recursion. Nothing fails but an access through a pointer. -/
structure InRange (s : Client) (op : Op) : Prop where
  pool : PoolInRange s.alloc
  reported : (s.stepTraced op).result = s.step op
  events : Reports PoolEvent.InRange (s.stepTraced op)
  fills : count PoolEvent.isFill (s.stepTraced op) ≤ 2
  faults : FailsOnly .badAccess (s.step op)

variable {s t : Client}

/-- Every block in use has a byte. -/
theorem live_pos_step {op : Op} (h : ∀ b ∈ s.live, 1 ≤ b.n) (hrun : s.step op = .ok t) :
    ∀ b ∈ t.live, 1 ≤ b.n := by
  cases op with
  | allocate n =>
      rcases bind_eq_ok.1 hrun with ⟨⟨alloc, p⟩, hcall, hrun⟩
      cases hrun
      intro b hb
      rcases List.mem_append.1 hb with hb | hb
      · rcases List.mem_map.1 hb with ⟨a, ha, rfl⟩
        by_contra hn
        -- nothing is returned for a size below 1
        unfold FreeListAllocate.allocate at hcall
        rw [if_pos (by simp only at hn; omega)] at hcall
        cases hcall
        cases ha
      · exact h b hb
  | deallocate i =>
      simp only [Client.step] at hrun
      split at hrun
      · cases hrun
        exact h
      · rcases bind_eq_ok.1 hrun with ⟨alloc, -, hrun⟩
        cases hrun
        intro b hb
        exact h b (List.mem_of_mem_eraseIdx hb)
  | store i words =>
      simp only [Client.step] at hrun
      split at hrun
      · cases hrun
        exact h
      · cases hrun
        exact h

/-- What holds all through a run. -/
structure Sized (s : Client) : Prop where
  pool : PoolInRange s.alloc
  live : ∀ b ∈ s.live, 1 ≤ b.n

theorem start_sized (words : Addr → Option Addr) : Sized (start words) where
  -- the constructor is a first `fill_mem_pool`
  pool := fillMemPool_inRange ⟨fun _ => none, none, 0, ⟨words, []⟩⟩
  live := by
    intro b hb
    cases hb

theorem Sized.step {s t : Client} (h : Sized s) {op : Op} (hrun : s.step op = .ok t) : Sized t where
  pool := by
    cases op with
    | allocate n =>
        rcases bind_eq_ok.1 hrun with ⟨⟨alloc, p⟩, hcall, hrun⟩
        cases hrun
        exact h.pool.allocate hcall
    | deallocate k =>
        simp only [Client.step] at hrun
        split at hrun
        · cases hrun
          exact h.pool
        · rcases bind_eq_ok.1 hrun with ⟨alloc, hcall, hrun⟩
          cases hrun
          exact h.pool.deallocate hcall
    | store k words =>
        simp only [Client.step] at hrun
        split at hrun
        · cases hrun
          exact h.pool
        · cases hrun
          exact ⟨h.pool.aligned, h.pool.nonneg, h.pool.le, h.pool.atEnd⟩
  live := live_pos_step h.live hrun

theorem sized_of_run {words : Addr → Option Addr} {ops : List Op}
    (hrun : run step (start words) ops = .ok s) : Sized s := by
  refine run_invariant Sized ?_ (start_sized words) hrun
  intro t op u ht hstep
  exact ht.step hstep

variable {op : Op}

theorem Sized.events (h : Sized s) (hop : op.Positive) :
    Reports PoolEvent.InRange (s.stepTraced op) := by
  cases op with
  | allocate n => exact (h.pool.allocateTraced_inRange hop).bind fun _ _ => .pure _ _
  | deallocate k =>
      simp only [stepTraced]
      split
      · exact .pure _ _
      · rename_i b hb
        have hn := h.live b (List.mem_of_getElem? hb)
        exact (deallocateTraced_inRange _ _ hn).bind fun _ _ => .pure _ _
  | store k words =>
      simp only [stepTraced]
      split
      · exact .pure _ _
      · exact .pure _ _

theorem stepTraced_fills (s : Client) (op : Op) : count PoolEvent.isFill (s.stepTraced op) ≤ 2 := by
  cases op with
  | allocate n =>
      exact count_bind_le (m := 2) (n := 0) (allocateTraced_fills _ n) fun _ _ => le_rfl
  | deallocate k =>
      simp only [stepTraced]
      split
      · exact Nat.zero_le _
      · refine count_bind_le (m := 2) (n := 0) ?_ fun _ _ => le_rfl
        rw [deallocateTraced_fills]
        exact Nat.zero_le _
  | store k words =>
      simp only [stepTraced]
      split
      · exact Nat.zero_le _
      · exact Nat.zero_le _

theorem Sized.faults (h : Sized s) (hop : op.Positive) : FailsOnly .badAccess (s.step op) := by
  cases op with
  | allocate n => exact (h.pool.allocate_fails hop).bind fun _ _ => .ok _ _
  | deallocate k =>
      simp only [Client.step]
      split
      · exact .ok _ _
      · rename_i b hb
        have hn := h.live b (List.mem_of_getElem? hb)
        exact (deallocate_fails _ _ hn).bind fun _ _ => .ok _ _
  | store k words =>
      simp only [Client.step]
      split
      · exact .ok _ _
      · exact .ok _ _

theorem Sized.inRange (h : Sized s) (hop : op.Positive) : InRange s op where
  pool := h.pool
  reported := stepTraced_result s op
  events := h.events hop
  fills := stepTraced_fills s op
  faults := h.faults hop

end Client

open Client

/-- In every state that calls lead to, and in the next call for a block of any size
above zero whatever becomes of it, the numbers of the allocator are in range. -/
theorem pool_arithmetic (words : Addr → Option Addr) (ops : List Client.Op) {s : Client}
    (hrun : run step (start words) ops = .ok s) {op : Client.Op} (hop : op.Positive) :
    InRange s op :=
  (sized_of_run hrun).inRange hop

theorem pool_arithmetic_first :
    ∃ s, run step (start fun _ => none) [.allocate 5000, .allocate 8] = .ok s ∧
      InRange s (.allocate 4096) := by
  refine ⟨_, rfl, pool_arithmetic (fun _ => none) [.allocate 5000, .allocate 8] rfl ?_⟩
  exact show (1 : ℤ) ≤ 4096 by norm_num

end Smallkv
