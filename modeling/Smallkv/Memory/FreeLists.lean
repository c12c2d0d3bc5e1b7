import Smallkv.Memory.Allocate

/-!
# Memory.FreeLists — the lists of the slots

The free blocks of all slots, the unused end of the pool and the blocks in use
are a partition of the chunks (`Layout`). Mounting a block takes a region from
its owner and puts it into a list, `Allocate` takes it out again, and filling a
slot cuts the pool up. One step of the allocator does not fit in: what it
recycles of a pool that is too small goes behind the head of another list and
points back at it, so that the list has no end any more (`recycle_ok`).
-/

namespace Smallkv

open Fallible Regions

namespace FreeListAllocate

/-- The free blocks of all slots. -/
def freeRegions (free : Fin kSlotNum → List Addr) : List Region :=
  (List.finRange kSlotNum).flatMap fun i => (free i).map (Region.mk · (blockSize i))

theorem blockSize_pos (i : Fin kSlotNum) : 8 ≤ blockSize i := by
  unfold blockSize
  omega

theorem blockSize_le (i : Fin kSlotNum) : blockSize i ≤ 4096 := by
  have hlt : (i : ℕ) < 512 := i.isLt
  unfold blockSize
  omega

theorem mem_freeRegions {free : Fin kSlotNum → List Addr} {i : Fin kSlotNum} {a : Addr}
    (h : a ∈ free i) : ⟨a, blockSize i⟩ ∈ freeRegions free :=
  List.mem_flatMap.2 ⟨i, List.mem_finRange i, List.mem_map.2 ⟨a, h, rfl⟩⟩

theorem freeRegions_push (free : Fin kSlotNum → List Addr) (i : Fin kSlotNum) (a : Addr) :
    (freeRegions (Function.update free i (a :: free i))).Perm
      (⟨a, blockSize i⟩ :: freeRegions free) := by
  have hother : ∀ j, j ≠ i → (Function.update free i (a :: free i) j).map (Region.mk · (blockSize j)) =
      (free j).map (Region.mk · (blockSize j)) := by
    intro j hj
    rw [Function.update_of_ne hj]
  have hself : ((Function.update free i (a :: free i) i).map (Region.mk · (blockSize i))).Perm
      ([⟨a, blockSize i⟩] ++ (free i).map (Region.mk · (blockSize i))) := by
    rw [Function.update_self]
    exact List.Perm.refl _
  have hperm := flatMap_perm_extend (List.nodup_finRange kSlotNum) (List.mem_finRange i) hother hself
  rwa [List.singleton_append] at hperm

theorem total_push (free : Fin kSlotNum → List Addr) (i : Fin kSlotNum) (a : Addr) :
    total (freeRegions (Function.update free i (a :: free i))) =
      blockSize i + total (freeRegions free) := by
  rw [total_perm (freeRegions_push free i a), total_cons]

/-- The slots hold the lists `free`, whose blocks together with the regions
`owned` are a partition of the chunks. -/
structure Lists (s : FreeListAllocate) (owned : List Region) (free : Fin kSlotNum → List Addr) :
    Prop where
  linked : ∀ i, Linked s.heap.next (s.memorySlot i) (free i)
  partition : Partition s.heap.chunks (owned ++ freeRegions free)

variable {s s' : FreeListAllocate} {owned : List Region} {free : Fin kSlotNum → List Addr}
  {i : Fin kSlotNum} {a : Addr}

/-- A block that has an owner is in no list. -/
theorem Lists.notMem (h : Lists s (⟨a, blockSize i⟩ :: owned) free) (j : Fin kSlotNum) :
    a ∉ free j := by
  intro ha
  have hdisjoint := h.partition.head_disjoint _
    (List.mem_append_right owned (mem_freeRegions ha))
  have hi := blockSize_pos i
  have hj := blockSize_pos j
  exact hdisjoint.start_ne (by simp only; omega) (by simp only; omega) rfl

theorem valid_of_inside (h : Region.Inside s.heap.chunks ⟨a, blockSize i⟩) : s.heap.Valid a := by
  rcases h with ⟨-, hstart, n, hn, hend⟩
  simp only at hstart hn hend
  have hsize := blockSize_pos i
  exact ⟨hstart, n, hn, by omega⟩

/-! ## Mounting a block -/

/-- The state behind `mount`. -/
def mounted (s : FreeListAllocate) (i : Fin kSlotNum) (a : Addr) : FreeListAllocate :=
  { s with
    heap.next := Function.update s.heap.next a (s.memorySlot i)
    memorySlot := Function.update s.memorySlot i (some a) }

theorem mount_of_valid (hvalid : s.heap.Valid a) : s.mount i (some a) = .ok (s.mounted i a) := by
  unfold mount Heap.writeNext
  rw [orFail_some, ok_bind, require_of hvalid]
  rfl

/-- The block moves from its owner to the front of the list. -/
theorem Lists.mounted (h : Lists s (⟨a, blockSize i⟩ :: owned) free) :
    Lists (s.mounted i a) owned (Function.update free i (a :: free i)) := by
  constructor
  · intro j
    show Linked (Function.update s.heap.next a (s.memorySlot i))
      (Function.update s.memorySlot i (some a) j) (Function.update free i (a :: free i) j)
    by_cases hj : j = i
    · subst hj
      rw [Function.update_self, Function.update_self]
      exact (h.linked j).push (h.notMem j)
    · rw [Function.update_of_ne hj, Function.update_of_ne hj]
      apply (h.linked j).congr
      intro b hb
      rw [Function.update_of_ne]
      rintro rfl
      exact h.notMem j hb
  · apply h.partition.perm
    have hpush := (freeRegions_push free i a).symm.append_left owned
    exact List.perm_middle.symm.trans hpush

/-- A block is taken off the front of its list. -/
theorem Lists.popped (h : Lists s owned free) (hslot : s.memorySlot i = some a) :
    s.heap.readNext (some a) = .ok (s.heap.next a) ∧
      ∃ free', Lists { s with memorySlot := Function.update s.memorySlot i (s.heap.next a) }
        (⟨a, blockSize i⟩ :: owned) free' ∧
          total (freeRegions free) = blockSize i + total (freeRegions free') := by
  have hlinked := h.linked i
  rw [hslot] at hlinked
  rcases hlinked.pop with ⟨as, has, htail⟩
  have hmem : a ∈ free i := by
    rw [has]
    exact List.mem_cons_self
  have hinside := h.partition.inside _ (List.mem_append_right owned (mem_freeRegions hmem))
  constructor
  · unfold Heap.readNext
    rw [orFail_some, ok_bind, require_of (valid_of_inside hinside)]
    rfl
  · have hpush := freeRegions_push (Function.update free i as) i a
    rw [Function.update_self, Function.update_idem, ← has, Function.update_eq_self] at hpush
    refine ⟨Function.update free i as, ⟨?_, ?_⟩, ?_⟩
    · intro j
      by_cases hj : j = i
      · subst hj
        simp only [Function.update_self]
        exact htail
      · simp only [Function.update_of_ne hj]
        exact h.linked j
    · apply h.partition.perm
      exact (hpush.append_left owned).trans List.perm_middle
    · rw [total_perm hpush, total_cons]

/-! ## Filling a slot -/

theorem mountFromPool_of_valid {p : Addr} {n : ℕ} (hstart : s.memPoolStart = some p)
    (hvalid : s.heap.Valid (p.shift (n * blockSize i))) :
    mountFromPool i s n = .ok (s.mounted i (p.shift (n * blockSize i))) := by
  have hnode : (s.memPoolStart.map fun a => a.shift (n * blockSize i)) =
      some (p.shift (n * blockSize i)) := by
    rw [hstart, Option.map_some]
  unfold mountFromPool endList
  simp only [hnode]
  by_cases hn : n = 0
  · -- the pointer of the first block is written twice
    rw [if_pos hn, Heap.writeNext, orFail_some, ok_bind, require_of hvalid, ok_bind, pure_eq_ok,
      ok_bind]
    refine (mount_of_valid (s := { s with heap.next := Function.update s.heap.next _ none })
      hvalid).trans ?_
    simp only [mounted, Function.update_idem]
  · rw [if_neg hn, pure_eq_ok, ok_bind]
    exact mount_of_valid hvalid

/-- Both loops cut `cnt` blocks off the pool and mount them. -/
theorem takeFromPool_spec {p : Addr} {cnt : ℕ} (hstart : s.memPoolStart = some p)
    (hfit : cnt * blockSize i ≤ s.memPoolSize)
    (h : Lists s (⟨p, s.memPoolSize⟩ :: owned) free) :
    ∃ s' free', s.takeFromPool i cnt = .ok s' ∧
      s'.memPoolStart = some (p.shift (cnt * blockSize i)) ∧
      s'.memPoolSize = s.memPoolSize - cnt * blockSize i ∧
      Lists s' (⟨p.shift (cnt * blockSize i), s.memPoolSize - cnt * blockSize i⟩ :: owned) free' ∧
      (0 < cnt → s'.memorySlot i ≠ none) ∧ s'.heap.chunks = s.heap.chunks ∧
      total (freeRegions free') = total (freeRegions free) + cnt * blockSize i := by
  have hloop : ∃ t, run (mountFromPool i) s (List.range cnt) = .ok t ∧
      ∃ free', Lists t (⟨p.shift (cnt * blockSize i), s.memPoolSize - cnt * blockSize i⟩ :: owned)
        free' ∧ t.memPoolStart = some p ∧ t.memPoolSize = s.memPoolSize ∧
          (0 < cnt → t.memorySlot i ≠ none) ∧ t.heap.chunks = s.heap.chunks ∧
            total (freeRegions free') = total (freeRegions free) + cnt * blockSize i := by
    apply run_range (fun j (t : FreeListAllocate) => ∃ free',
      Lists t (⟨p.shift (j * blockSize i), s.memPoolSize - j * blockSize i⟩ :: owned) free' ∧
        t.memPoolStart = some p ∧ t.memPoolSize = s.memPoolSize ∧ (0 < j → t.memorySlot i ≠ none) ∧
          t.heap.chunks = s.heap.chunks ∧
            total (freeRegions free') = total (freeRegions free) + j * blockSize i)
    · refine ⟨free, ?_, hstart, rfl, fun h0 => absurd h0 (lt_irrefl 0), rfl, by simp⟩
      simpa [Addr.shift_zero] using h
    · rintro j t hj ⟨free', hlists, hstart', hsize', -, hchunks, htotal⟩
      have hb := blockSize_pos i
      have hroom : ((j + 1 : ℕ) : ℤ) * blockSize i ≤ s.memPoolSize := by
        have hle : ((j + 1 : ℕ) : ℤ) * blockSize i ≤ cnt * blockSize i := by
          apply mul_le_mul_of_nonneg_right _ (by omega)
          exact_mod_cast hj
        omega
      have hnext : ((j + 1 : ℕ) : ℤ) * blockSize i = j * blockSize i + blockSize i := by
        push_cast
        ring
      -- the next block is cut off what is left
      have hcut : s.memPoolSize - j * blockSize i =
          blockSize i + (s.memPoolSize - (j + 1 : ℕ) * blockSize i) := by omega
      rw [hcut] at hlists
      have hsplit := hlists.partition.split (by omega) (by omega)
      rw [Addr.shift_shift, ← hnext] at hsplit
      have hlists' : Lists t (⟨p.shift (j * blockSize i), blockSize i⟩ ::
          ⟨p.shift ((j + 1 : ℕ) * blockSize i), s.memPoolSize - (j + 1 : ℕ) * blockSize i⟩ ::
            owned) free' := ⟨hlists.linked, hsplit⟩
      have hvalid := valid_of_inside (hlists'.partition.inside _ List.mem_cons_self)
      refine ⟨_, mountFromPool_of_valid hstart' hvalid, _, hlists'.mounted, hstart', hsize', ?_,
        hchunks, ?_⟩
      · intro _
        simp [FreeListAllocate.mounted]
      · rw [total_push, htotal, hnext]
        ring
  rcases hloop with ⟨t, hrun, free', hlists, hstart', hsize', hslot, hchunks, htotal⟩
  refine ⟨{ t with
      memPoolStart := t.memPoolStart.map fun a => a.shift (cnt * blockSize i)
      memPoolSize := t.memPoolSize - cnt * blockSize i }, free', ?_, ?_, ?_, ?_, hslot, hchunks,
    htotal⟩
  · rw [takeFromPool, hrun, ok_bind, pure_eq_ok]
  · rw [hstart', Option.map_some]
  · rw [hsize']
  · exact ⟨hlists.linked, hlists.partition⟩

/-- The pool is at `pool`, and its unused end is one region of the partition. -/
structure Layout (s : FreeListAllocate) (live : List Region) (pool : Addr)
    (free : Fin kSlotNum → List Addr) : Prop where
  start : s.memPoolStart = some pool
  aligned : s.memPoolSize % 8 = 0
  lists : Lists s (⟨pool, s.memPoolSize⟩ :: live) free

/-- Nothing is missing: what is in use, the free blocks and the pool have as many
bytes as all chunks, each of `CHUNK_SIZE` bytes. -/
def Covers (s : FreeListAllocate) (live : List Region) (free : Fin kSlotNum → List Addr) : Prop :=
  total live + total (freeRegions free) + s.memPoolSize = kChunkSize * s.heap.chunks.length

variable {live : List Region} {pool : Addr}

theorem Layout.size_nonneg (h : Layout s live pool free) : 0 ≤ s.memPoolSize :=
  (h.lists.partition.inside _ List.mem_cons_self).1

theorem Layout.takeFromPool (h : Layout s live pool free) {cnt : ℕ} (hcnt : 0 < cnt)
    (hfit : cnt * blockSize i ≤ s.memPoolSize) :
    ∃ s' pool' free', s.takeFromPool i cnt = .ok s' ∧ Layout s' live pool' free' ∧
      s'.memorySlot i ≠ none ∧ (Covers s live free → Covers s' live free') := by
  rcases takeFromPool_spec h.start hfit h.lists with
    ⟨s', free', hrun, hstart, hsize, hlists, hslot, hchunks, htotal⟩
  refine ⟨s', _, free', hrun, ⟨hstart, ?_, ?_⟩, hslot hcnt, ?_⟩
  · -- blocks are multiples of 8 bytes
    have haligned := h.aligned
    rw [hsize, blockSize, ← mul_assoc]
    omega
  · rwa [hsize]
  · intro hcovers
    unfold Covers at hcovers ⊢
    rw [hsize, hchunks, htotal]
    omega

/-- A used-up pool makes room for a new chunk. -/
theorem Layout.fillMemPool (h : Layout s live pool free) :
    ∃ pool', Layout s.fillMemPool live pool' free ∧ s.fillMemPool.memPoolSize = kChunkSize := by
  refine ⟨⟨s.heap.chunks.length, 0⟩, ⟨rfl, rfl, h.lists.linked, ?_⟩, rfl⟩
  exact h.lists.partition.tail.grow (by norm_num [kChunkSize])

theorem Covers.fillMemPool (h : Covers s live free) (hempty : s.memPoolSize = 0) :
    Covers s.fillMemPool live free := by
  have hchunks : s.fillMemPool.heap.chunks.length = s.heap.chunks.length + 1 :=
    List.length_append
  have hsize : s.fillMemPool.memPoolSize = kChunkSize := rfl
  unfold Covers at h ⊢
  rw [hchunks, hsize, Nat.cast_add, Nat.cast_one, mul_add, ← h, hempty]
  omega

/-- The slot is filled, unless what is left of the pool has to be recycled. -/
theorem Layout.fillSlot (h : Layout s live pool free)
    (hleft : ¬(8 ≤ s.memPoolSize ∧ s.memPoolSize < blockSize i)) :
    ∃ s' pool' free', fillSlot 2 s i = .ok s' ∧ Layout s' live pool' free' ∧
      s'.memorySlot i ≠ none ∧ (Covers s live free → Covers s' live free') := by
  have hpos := blockSize_pos i
  have hnonneg := h.size_nonneg
  have haligned := h.aligned
  rw [FreeListAllocate.fillSlot]
  by_cases hten : s.memPoolSize ≥ kFillBlockCnt * blockSize i
  · -- ten blocks
    rw [if_pos hten]
    exact h.takeFromPool (by decide) hten
  rw [if_neg hten]
  by_cases hone : s.memPoolSize ≥ blockSize i
  · -- as many as there are
    rw [if_pos hone, Int.tdiv_eq_ediv_of_nonneg hnonneg]
    have hcnt : 1 ≤ s.memPoolSize / blockSize i :=
      Int.le_ediv_of_mul_le (by omega) (by rwa [one_mul])
    have hmul := Int.ediv_mul_le s.memPoolSize (show blockSize i ≠ 0 by omega)
    apply h.takeFromPool
    · omega
    · rwa [Int.toNat_of_nonneg (by omega)]
  · -- a new chunk, which has room for ten of any size
    have hempty : ¬ s.memPoolSize ≥ 8 := by omega
    have htmod : s.memPoolSize.tmod 8 = 0 := by
      rw [Int.tmod_eq_emod_of_nonneg hnonneg]
      exact haligned
    rcases h.fillMemPool with ⟨pool', hnew, hsize⟩
    have hfit : s.fillMemPool.memPoolSize ≥ kFillBlockCnt * blockSize i := by
      have hle := blockSize_le i
      rw [hsize]
      norm_num [kChunkSize, kFillBlockCnt]
      omega
    rw [if_neg hone, require_of htmod, ok_bind, recycle, if_neg hempty, pure_eq_ok, ok_bind,
      FreeListAllocate.fillSlot, if_pos hfit]
    rcases hnew.takeFromPool (by decide) hfit with ⟨s', pool', free', hrun, h', hslot, hcovers⟩
    exact ⟨s', pool', free', hrun, h', hslot, fun h₀ => hcovers (h₀.fillMemPool (by omega))⟩

/-! ## Calls -/

theorem slotAt_ok {index : ℤ} (h : slotAt index = .ok i) : (i : ℤ) = index := by
  unfold slotAt at h
  split at h
  · rename_i hbound
    cases h
    exact Int.toNat_of_nonneg hbound.1
  · cases h

/-- A size that is served from the slots has one. -/
theorem slotAt_of_small {n : ℤ} (h1 : 1 ≤ n) (hmax : n ≤ 4096) :
    ∃ i, slotAt (getIndex n) = .ok i ∧ blockSize i = (getIndex n + 1) * 8 := by
  have hindex : getIndex n = (n + 7) / 8 - 1 := by
    rw [getIndex, Int.tdiv_eq_ediv_of_nonneg (by omega)]
  have hbound : 0 ≤ getIndex n ∧ getIndex n < kSlotNum := by
    rw [hindex, kSlotNum]
    omega
  refine ⟨_, dif_pos hbound, ?_⟩
  rw [blockSize]
  simp only
  omega

/-- The first block of a slot is taken off its list. -/
def pop (s : FreeListAllocate) (i : Fin kSlotNum) : Exec (FreeListAllocate × Option Addr) := do
  let next ← s.heap.readNext (s.memorySlot i)
  pure ({ s with memorySlot := Function.update s.memorySlot i next }, s.memorySlot i)

theorem allocate_of_small {n : ℤ} (h1 : 1 ≤ n) (hmax : n ≤ 4096) :
    s.allocate n = (do
      let i ← slotAt (getIndex n)
      let t ← s.fillIfEmpty i
      t.pop i) := by
  have hsmall : ¬ n ≤ 0 := by omega
  have hslots : ¬ n > kMaxObjSize := not_lt.2 hmax
  rw [FreeListAllocate.allocate, if_neg hsmall, if_neg hslots]
  rfl

theorem deallocate_eq {n : ℤ} (h1 : 1 ≤ n) (a : Addr) :
    s.deallocate (some a) n =
      if n > kMaxObjSize then s.heap.free a >>= fun heap => .ok { s with heap := heap }
      else slotAt (getIndex n) >>= fun i => s.mount i (some a) := by
  have hgiven : ¬ (some a = none ∨ n = 0) := by
    rintro (hnull | hzero)
    · cases hnull
    · omega
  rw [FreeListAllocate.deallocate, if_neg hgiven, orFail_some, ok_bind]
  rfl

/-- A call of `Allocate` that finds the slot empty and a pool that is too small
for a block, but not used up. -/
def Recycles (s : FreeListAllocate) (n : ℤ) : Prop :=
  ∃ i, slotAt (getIndex n) = .ok i ∧ s.memorySlot i = none ∧ 8 ≤ s.memPoolSize ∧
    s.memPoolSize < blockSize i

/-- `Allocate` hands a region over that had no owner. -/
theorem Layout.allocate (h : Layout s live pool free) {n : ℤ} (h1 : 1 ≤ n) (hmax : n ≤ 4096)
    (hkeep : ¬ s.Recycles n) :
    ∃ s' a pool' free', s.allocate n = .ok (s', some a) ∧
      Layout s' (⟨a, (getIndex n + 1) * 8⟩ :: live) pool' free' ∧
        (Covers s live free → Covers s' (⟨a, (getIndex n + 1) * 8⟩ :: live) free') := by
  rcases slotAt_of_small h1 hmax with ⟨i, hslotAt, hblock⟩
  have hfill : ∃ s₁ pool₁ free₁, s.fillIfEmpty i = .ok s₁ ∧ Layout s₁ live pool₁ free₁ ∧
      s₁.memorySlot i ≠ none ∧ (Covers s live free → Covers s₁ live free₁) := by
    unfold fillIfEmpty
    by_cases hempty : s.memorySlot i = none
    · rw [if_pos hempty]
      exact h.fillSlot fun hleft => hkeep ⟨i, hslotAt, hempty, hleft⟩
    · rw [if_neg hempty]
      exact ⟨s, pool, free, rfl, h, hempty, id⟩
  rcases hfill with ⟨s₁, pool₁, free₁, hfill, h₁, hne, hcovers⟩
  rcases Option.ne_none_iff_exists'.1 hne with ⟨a, ha⟩
  rcases h₁.lists.popped ha with ⟨hread, free', hlists, htotal⟩
  rw [hblock] at hlists htotal
  refine ⟨{ s₁ with memorySlot := Function.update s₁.memorySlot i (s₁.heap.next a) }, a, pool₁,
    free', ?_, ⟨h₁.start, h₁.aligned, hlists.linked,
      hlists.partition.perm (List.Perm.swap _ _ _)⟩, ?_⟩
  case refine_2 =>
    intro h₀
    have hbefore := hcovers h₀
    unfold Covers at hbefore ⊢
    rw [total_cons]
    simp only
    omega
  rw [allocate_of_small h1 hmax, hslotAt, ok_bind, hfill, ok_bind, pop, ha, hread, ok_bind, pure_eq_ok]

/-- `Deallocate` takes the region back. -/
theorem Layout.deallocate {a : Addr} {n : ℤ}
    (h : Layout s (⟨a, (getIndex n + 1) * 8⟩ :: live) pool free) (h1 : 1 ≤ n) (hmax : n ≤ 4096) :
    ∃ s' free', s.deallocate (some a) n = .ok s' ∧ Layout s' live pool free' ∧
      (Covers s (⟨a, (getIndex n + 1) * 8⟩ :: live) free → Covers s' live free') := by
  rcases slotAt_of_small h1 hmax with ⟨i, hslotAt, hblock⟩
  have hlists : Lists s (⟨a, blockSize i⟩ :: ⟨pool, s.memPoolSize⟩ :: live) free := by
    rw [hblock]
    exact ⟨h.lists.linked, h.lists.partition.perm (List.Perm.swap _ _ _)⟩
  have hvalid := valid_of_inside (hlists.partition.inside _ List.mem_cons_self)
  have hslots : ¬ n > kMaxObjSize := not_lt.2 hmax
  refine ⟨s.mounted i a, _, ?_, ⟨h.start, h.aligned, hlists.mounted⟩, ?_⟩
  · rw [deallocate_eq h1, if_neg hslots, hslotAt, ok_bind, mount_of_valid hvalid]
  · intro hcovers
    unfold Covers at hcovers ⊢
    rw [total_cons, ← hblock] at hcovers
    rw [total_push]
    simp only [FreeListAllocate.mounted] at hcovers ⊢
    omega

/-- The order of the blocks in use does not matter. -/
theorem Layout.perm (h : Layout s live pool free) {live' : List Region} (hperm : live.Perm live') :
    Layout s live' pool free where
  start := h.start
  aligned := h.aligned
  lists := ⟨h.lists.linked, h.lists.partition.perm ((hperm.cons _).append_right _)⟩

theorem Covers.perm (h : Covers s live free) {live' : List Region} (hperm : live.Perm live') :
    Covers s live' free := by
  rwa [Covers, ← total_perm hperm]

/-- Words in a block that is in use are of no interest to the allocator. -/
theorem Layout.store {r : Region} (h : Layout s (r :: live) pool free) (next : Addr → Option Addr)
    (hsame : ∀ a, ¬(a.chunk = r.start.chunk ∧ r.start.offset < a.offset + 8 ∧
      a.offset < r.start.offset + r.size) → next a = s.heap.next a) :
    Layout { s with heap.next := next } (r :: live) pool free where
  start := h.start
  aligned := h.aligned
  lists := by
    refine ⟨?_, h.lists.partition⟩
    intro i
    apply (h.lists.linked i).congr
    intro a ha
    apply hsame
    rintro ⟨hchunk, hlo, hhi⟩
    have hperm := h.lists.partition.perm (List.Perm.swap _ _ _)
    have hdisjoint := hperm.head_disjoint _ (List.mem_cons_of_mem _
      (List.mem_append_right live (mem_freeRegions ha))) hchunk.symm
    have hsize := blockSize_pos i
    simp only at hdisjoint
    omega

/-! ## Recycling -/

theorem writeNext_ok {heap heap' : Heap} {p q : Option Addr} (h : heap.writeNext p q = .ok heap') :
    ∃ a, p = some a ∧ heap.Valid a ∧ heap' = { heap with next := Function.update heap.next a q } := by
  rcases bind_eq_ok.1 h with ⟨a, ha, h⟩
  rcases bind_eq_ok.1 h with ⟨_, hvalid, h⟩
  cases h
  exact ⟨a, orFail_eq_ok.1 ha, require_eq_ok.1 hvalid, rfl⟩

/-- What `fill_slot` leaves alone: the other slots, and the words outside the
chunk that it takes the blocks from. -/
structure Untouched (s s' : FreeListAllocate) (i : Fin kSlotNum) (chunk : ℕ) : Prop where
  slots : ∀ j, j ≠ i → s'.memorySlot j = s.memorySlot j
  words : ∀ a : Addr, a.chunk ≠ chunk → s'.heap.next a = s.heap.next a

theorem Untouched.mounted {t : FreeListAllocate} {chunk : ℕ} (h : Untouched s t i chunk)
    (ha : a.chunk = chunk) : Untouched s (t.mounted i a) i chunk where
  slots := by
    intro j hj
    show Function.update t.memorySlot i (some a) j = s.memorySlot j
    rw [Function.update_of_ne hj]
    exact h.slots j hj
  words := by
    intro b hb
    show Function.update t.heap.next a (t.memorySlot i) b = s.heap.next b
    rw [Function.update_of_ne]
    · exact h.words b hb
    · rintro rfl
      exact hb ha

/-- A round that succeeds mounts the next block. -/
theorem mountFromPool_ok {p : Addr} {n : ℕ} (hstart : s.memPoolStart = some p)
    (hrun : mountFromPool i s n = .ok s') :
    s' = s.mounted i (p.shift (n * blockSize i)) := by
  have hvalid : s.heap.Valid (p.shift (n * blockSize i)) := by
    rcases bind_eq_ok.1 hrun with ⟨heap, hheap, hmount⟩
    unfold endList at hheap
    rcases bind_eq_ok.1 hmount with ⟨heap', hwrite, -⟩
    rcases writeNext_ok hwrite with ⟨a, ha, hvalid, -⟩
    rw [hstart, Option.map_some, Option.some.injEq] at ha
    rw [ha]
    split at hheap
    · rcases writeNext_ok hheap with ⟨b, -, -, rfl⟩
      exact hvalid
    · cases hheap
      exact hvalid
  rw [mountFromPool_of_valid hstart hvalid] at hrun
  cases hrun
  rfl

theorem takeFromPool_untouched {p : Addr} {cnt : ℕ} (hstart : s.memPoolStart = some p)
    (hrun : s.takeFromPool i cnt = .ok s') : Untouched s s' i p.chunk := by
  rcases bind_eq_ok.1 hrun with ⟨t, hloop, hrun⟩
  cases hrun
  have hinv : t.memPoolStart = some p ∧ Untouched s t i p.chunk := by
    refine run_invariant (fun t => t.memPoolStart = some p ∧ Untouched s t i p.chunk) ?_ ?_ hloop
    · rintro t n t' ⟨hstart', hsame⟩ hstep
      rw [mountFromPool_ok hstart' hstep]
      exact ⟨hstart', hsame.mounted rfl⟩
    · exact ⟨hstart, fun _ _ => rfl, fun _ _ => rfl⟩
  exact ⟨hinv.2.slots, hinv.2.words⟩

/-- Two blocks that a slot leads to and that point to each other. -/
def Cyclic (s : FreeListAllocate) (j : Fin kSlotNum) : Prop :=
  ∃ a b, s.memorySlot j = some a ∧ s.heap.next a = some b ∧ s.heap.next b = some a

/-- Where recycling succeeds it makes a cycle of the head of the list and what
was left of the pool. -/
theorem recycle_ok (hsize : 8 ≤ s.memPoolSize) (hrun : s.recycle = .ok s') :
    ∃ j a b, slotAt (getIndex s.memPoolSize) = .ok j ∧ s'.memorySlot j = some a ∧
      s'.heap.next a = some b ∧ s'.heap.next b = some a ∧ s'.memorySlot = s.memorySlot ∧
        a.chunk < s'.heap.chunks.length ∧ b.chunk < s'.heap.chunks.length := by
  rw [recycle, if_pos hsize] at hrun
  rcases bind_eq_ok.1 hrun with ⟨j, hj, hrun⟩
  rcases bind_eq_ok.1 hrun with ⟨heap₁, hwrite₁, hrun⟩
  rcases bind_eq_ok.1 hrun with ⟨heap₂, hwrite₂, hrun⟩
  cases hrun
  rcases writeNext_ok hwrite₁ with ⟨b, hb, ⟨-, nb, hnb, -⟩, rfl⟩
  rcases writeNext_ok hwrite₂ with ⟨a, ha, ⟨-, na, hna, -⟩, rfl⟩
  refine ⟨j, a, b, hj, ha, ?_, ?_, rfl, ?_, ?_⟩
  · show Function.update (Function.update s.heap.next b (s.memorySlot j)) a s.memPoolStart a = some b
    rw [Function.update_self, hb]
  · show Function.update (Function.update s.heap.next b (s.memorySlot j)) a s.memPoolStart b = some a
    by_cases hab : b = a
    · rw [hab, Function.update_self, hb, hab]
    · rw [Function.update_of_ne hab, Function.update_self, ha]
  · exact (List.getElem?_eq_some_iff.1 hna).1
  · exact (List.getElem?_eq_some_iff.1 hnb).1

/-- A call that recycles, if it returns at all, leaves a cycle. -/
theorem Layout.allocate_recycles (h : Layout s live pool free) {n : ℤ} {p : Option Addr}
    (h1 : 1 ≤ n) (hmax : n ≤ 4096) (hrecycles : s.Recycles n)
    (hrun : s.allocate n = .ok (s', p)) : ∃ j, s'.Cyclic j := by
  rcases hrecycles with ⟨i, hslotAt, hempty, hleft, hblock⟩
  have hmany : ¬ s.memPoolSize ≥ kFillBlockCnt * blockSize i := by
    unfold kFillBlockCnt
    omega
  rw [allocate_of_small h1 hmax, hslotAt, ok_bind, fillIfEmpty, if_pos hempty,
    FreeListAllocate.fillSlot, if_neg hmany, if_neg (not_le.2 hblock)] at hrun
  rcases bind_eq_ok.1 hrun with ⟨s₂, hfill, hrun⟩
  rcases bind_eq_ok.1 hfill with ⟨_, -, hfill⟩
  rcases bind_eq_ok.1 hfill with ⟨s₁, hrecycle, hfill⟩
  rcases recycle_ok hleft hrecycle with ⟨j, a, b, hj, ha, hab, hba, -, hachunk, hbchunk⟩
  -- the leftover is smaller than the blocks of the slot, so it is another list
  have hji : j ≠ i := by
    rintro rfl
    have hindex := slotAt_ok hj
    have haligned := h.aligned
    rw [getIndex, Int.tdiv_eq_ediv_of_nonneg (by omega)] at hindex
    unfold blockSize at hblock
    omega
  -- the slot is filled from a new chunk
  have hfit : s₁.fillMemPool.memPoolSize ≥ kFillBlockCnt * blockSize i := by
    have hle := blockSize_le i
    show kChunkSize ≥ kFillBlockCnt * blockSize i
    norm_num [kChunkSize, kFillBlockCnt]
    omega
  rw [FreeListAllocate.fillSlot, if_pos hfit] at hfill
  have hsame := takeFromPool_untouched rfl hfill
  rcases bind_eq_ok.1 hrun with ⟨next, -, hrun⟩
  cases hrun
  refine ⟨j, a, b, ?_, ?_, ?_⟩
  · show Function.update s₂.memorySlot i next j = some a
    rw [Function.update_of_ne hji, hsame.slots j hji]
    exact ha
  · rw [← hab]
    exact hsame.words a hachunk.ne
  · rw [← hba]
    exact hsame.words b hbchunk.ne

end FreeListAllocate

end Smallkv
