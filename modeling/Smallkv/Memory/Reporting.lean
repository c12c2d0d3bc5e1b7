import Smallkv.Memory.Exclusive
import Smallkv.Memory.Outcomes

/-!
# Memory.Reporting — what `Allocate` makes of the failures of `malloc`

A client of the allocator, where every call of `malloc` may fail, the first one of
the constructor as well. `Allocate` is to return a block or, where memory was not to
be had, the null pointer (`Reports`). For small blocks it has no null pointer: it
waits for a refill that succeeds, or uses a pool that it did not get (`Served`).
-/

namespace Smallkv

open Fallible Regions FreeListAllocate

/-- The bytes that are set aside for the block; a large one is a chunk of its own. -/
def Block.extent (b : Block) : Region := if b.n > kMaxObjSize then ⟨b.addr, b.n⟩ else b.region

/-- The words behind writes to the bytes of the block. -/
def Block.write (b : Block) (words next : Addr → Option Addr) : Addr → Option Addr := fun a =>
  if a.chunk = b.extent.start.chunk ∧ b.extent.start.offset < a.offset + 8 ∧
      a.offset < b.extent.start.offset + b.extent.size then words a
  else next a

/-- An allocator and the blocks that are in use. -/
structure CountedClient where
  alloc : Counted
  live : List Block

namespace CountedClient

/-- A call of a client's, if it returns. -/
inductive Step (outcomes : ℕ → Bool) : CountedClient → Client.Op → CountedClient → Prop
  | allocate {s : CountedClient} {n : ℤ} {fuel : ℕ} {alloc : Counted} {p : Option Addr}
      (hcall : s.alloc.allocate outcomes fuel n = .ok (alloc, p)) :
      Step outcomes s (.allocate n) ⟨alloc, p.toList.map (Block.mk · n) ++ s.live⟩
  | deallocate {s : CountedClient} {i : ℕ} {b : Block} {alloc : FreeListAllocate}
      (hlive : s.live[i]? = some b)
      (hcall : s.alloc.alloc.deallocate (some b.addr) b.n = .ok alloc) :
      Step outcomes s (.deallocate i) ⟨⟨alloc, s.alloc.mallocs⟩, s.live.eraseIdx i⟩
  | store {s : CountedClient} {i : ℕ} {b : Block} {words : Addr → Option Addr}
      (hlive : s.live[i]? = some b) :
      Step outcomes s (.store i words)
        { s with alloc.alloc.heap.next := b.write words s.alloc.alloc.heap.next }

/-- The call recycles what is left of a pool. -/
def Recycles (s : CountedClient) : Client.Op → Prop
  | .allocate n => s.alloc.alloc.Recycles n
  | .deallocate _ => False
  | .store _ _ => False

/-- The states behind calls that return and recycle nothing. -/
inductive Reaches (outcomes : ℕ → Bool) (words : Addr → Option Addr) : CountedClient → Prop
  | new : Reaches outcomes words ⟨Counted.new outcomes words, []⟩
  | step {s t : CountedClient} {op : Client.Op} (h : Reaches outcomes words s)
      (hkeep : ¬ s.Recycles op) (hstep : Step outcomes s op t) : Reaches outcomes words t

/-- The block lies in memory that is there and not in use. -/
def Usable (chunks : List ℤ) (live : List Block) (b : Block) : Prop :=
  b.extent.Inside chunks ∧ ∀ c ∈ live, b.extent.Disjoint c.extent

/-- `Allocate` returns: a block that can be used where the memory was obtained, null
where it was not. -/
def Reports (outcomes : ℕ → Bool) (s : CountedClient) (n : ℤ) : Prop :=
  ∃ fuel alloc p, s.alloc.allocate outcomes fuel n = .ok (alloc, p) ∧
    (Counted.Obtained outcomes s.alloc alloc →
      ∃ a, p = some a ∧ Usable alloc.alloc.heap.chunks s.live ⟨a, n⟩) ∧
    (¬ Counted.Obtained outcomes s.alloc alloc → p = none)

/-- The call needs no pool, or finds a block in its slot or in the pool; else what is
left of the pool has a list to go to, and some call of `malloc` from now on succeeds. -/
def Served (outcomes : ℕ → Bool) (s : CountedClient) (n : ℤ) : Prop :=
  n > kMaxObjSize ∨ ∃ i, slotAt (getIndex n) = .ok i ∧
    (s.alloc.alloc.memorySlot i ≠ none ∨
      (s.alloc.alloc.memPoolStart ≠ none ∧ blockSize i ≤ s.alloc.alloc.memPoolSize) ∨
      (s.alloc.alloc.memPoolSize < blockSize i ∧
        (∀ j, 8 ≤ s.alloc.alloc.memPoolSize → slotAt (getIndex s.alloc.alloc.memPoolSize) = .ok j →
          s.alloc.alloc.memorySlot j ≠ none) ∧
        ∃ k, s.alloc.mallocs ≤ k ∧ outcomes k = true))

end CountedClient

namespace FreeListAllocate

variable {s s' : FreeListAllocate} {i : Fin kSlotNum} {live : List Region} {pool : Addr}
  {free : Fin kSlotNum → List Addr}

/-! ## Chunks -/

/-- No chunk is added and the pool is in the one it was in, or the pool is in a new one. -/
def Grown (s s' : FreeListAllocate) : Prop :=
  (s'.heap.chunks = s.heap.chunks ∧
    s'.memPoolStart.map Addr.chunk = s.memPoolStart.map Addr.chunk) ∨
  (s'.heap.chunks = s.heap.chunks ++ [kChunkSize] ∧
    s'.memPoolStart.map Addr.chunk = some s.heap.chunks.length)

theorem mount_chunks {node : Option Addr} (h : s.mount i node = .ok s') :
    s'.heap.chunks = s.heap.chunks := by
  rcases bind_eq_ok.1 h with ⟨heap, hwrite, h⟩
  cases h
  rcases writeNext_ok hwrite with ⟨a, -, -, rfl⟩
  rfl

theorem takeFromPool_chunks {cnt : ℕ} (h : s.takeFromPool i cnt = .ok s') :
    s'.heap.chunks = s.heap.chunks ∧
      s'.memPoolStart.map Addr.chunk = s.memPoolStart.map Addr.chunk := by
  constructor
  · rcases bind_eq_ok.1 h with ⟨t, hloop, h⟩
    cases h
    refine run_invariant (fun t => t.heap.chunks = s.heap.chunks) ?_ rfl hloop
    intro t n t' hsame hstep
    rcases bind_eq_ok.1 hstep with ⟨heap, hend, hmount⟩
    rw [mount_chunks hmount, ← hsame]
    unfold endList at hend
    split at hend
    · rcases writeNext_ok hend with ⟨a, -, -, rfl⟩
      rfl
    · cases hend
      rfl
  · rw [(takeFromPool_pool h).1, Option.map_map]
    rfl

theorem recycle_chunks (h : s.recycle = .ok s') : s'.heap.chunks = s.heap.chunks := by
  unfold recycle at h
  split at h
  · rcases bind_eq_ok.1 h with ⟨j, -, h⟩
    rcases bind_eq_ok.1 h with ⟨heap, hwrite, h⟩
    rcases bind_eq_ok.1 h with ⟨heap', hwrite', h⟩
    cases h
    rcases writeNext_ok hwrite with ⟨a, -, -, rfl⟩
    rcases writeNext_ok hwrite' with ⟨b, -, -, rfl⟩
    rfl
  · cases h
    rfl

theorem fillSlot_grown (h : fillSlot 2 s i = .ok s') : Grown s s' := by
  by_cases hblock : s.memPoolSize ≥ blockSize i
  · rw [fillSlot_succ, if_pos hblock] at h
    exact .inl (takeFromPool_chunks h)
  · rw [Counted.fillSlot_two s i (not_le.1 hblock)] at h
    rcases bind_eq_ok.1 h with ⟨_, -, h⟩
    rcases bind_eq_ok.1 h with ⟨t, hrecycle, h⟩
    rcases takeFromPool_chunks h with ⟨hchunks, hpool⟩
    have hsame := recycle_chunks hrecycle
    -- only the refill adds a chunk, and the blocks are cut off that one
    refine .inr ⟨?_, ?_⟩
    · rw [hchunks, ← hsame]
      rfl
    · rw [hpool, ← hsame]
      rfl

theorem allocate_grown {n : ℤ} {p : Option Addr} (hmax : n ≤ kMaxObjSize)
    (h : s.allocate n = .ok (s', p)) : Grown s s' := by
  unfold allocate at h
  split at h
  · cases h
    exact .inl ⟨rfl, rfl⟩
  split at h
  · rename_i hlarge
    exact absurd hlarge (not_lt.2 hmax)
  rcases bind_eq_ok.1 h with ⟨i, -, h⟩
  rcases bind_eq_ok.1 h with ⟨t, hfill, h⟩
  rcases bind_eq_ok.1 h with ⟨next, -, h⟩
  cases h
  have ht : Grown s t := by
    unfold fillIfEmpty at hfill
    split at hfill
    · exact fillSlot_grown hfill
    · cases hfill
      exact .inl ⟨rfl, rfl⟩
  exact ht

/-- A large block is a chunk of its own. -/
theorem Layout.malloc (h : Layout s live pool free) {n : ℤ} (hn : 0 ≤ n) :
    Layout { s with heap := (s.heap.malloc n).1 } (⟨⟨s.heap.chunks.length, 0⟩, n⟩ :: live) pool free where
  start := h.start
  aligned := h.aligned
  lists := by
    refine ⟨h.lists.linked, ?_⟩
    exact (h.lists.partition.grow hn).perm (List.Perm.swap _ _ _)

theorem Layout.release {r : Region} (h : Layout s (r :: live) pool free)
    (hstart : r.start.offset = 0) (hwhole : s.heap.chunks[r.start.chunk]? = some r.size)
    (hpool : pool.chunk ≠ r.start.chunk) (hlive : ∀ c ∈ live, 0 < c.size) :
    Layout { s with heap.chunks := s.heap.chunks.set r.start.chunk 0 } live pool free where
  start := h.start
  aligned := h.aligned
  lists := by
    refine ⟨h.lists.linked, ?_⟩
    have hfirst := h.lists.partition.perm (List.Perm.swap _ _ _)
    refine hfirst.release hstart hwhole ?_
    intro c hc hzero
    rcases List.mem_cons.1 hc with rfl | hc
    · exact hpool
    rcases List.mem_append.1 hc with hc | hc
    · exact absurd hzero (hlive c hc).ne'
    · rcases List.mem_flatMap.1 hc with ⟨j, -, hc⟩
      rcases List.mem_map.1 hc with ⟨a, -, rfl⟩
      have hsize := blockSize_pos j
      simp only at hzero
      omega

/-! ## Behind a leftover -/

/-- The last block that is cut off the pool is the first one of its slot. -/
theorem takeFromPool_head {p : Addr} {cnt : ℕ} (hstart : s.memPoolStart = some p)
    (hvalid : ∀ j ≤ cnt, s.heap.Valid (p.shift (j * blockSize i))) :
    ∃ s', s.takeFromPool i (cnt + 1) = .ok s' ∧
      s'.memorySlot i = some (p.shift (cnt * blockSize i)) ∧ s'.heap.chunks = s.heap.chunks := by
  have hloop : ∃ t, run (mountFromPool i) s (List.range (cnt + 1)) = .ok t ∧
      t.memPoolStart = some p ∧ t.heap.chunks = s.heap.chunks ∧
        ∀ j, cnt + 1 = j + 1 → t.memorySlot i = some (p.shift (j * blockSize i)) := by
    apply run_range (fun m (t : FreeListAllocate) => t.memPoolStart = some p ∧
      t.heap.chunks = s.heap.chunks ∧
        ∀ j, m = j + 1 → t.memorySlot i = some (p.shift (j * blockSize i)))
    · exact ⟨hstart, rfl, fun j hj => absurd hj.symm (Nat.succ_ne_zero j)⟩
    · rintro m t hm ⟨hstart', hchunks, -⟩
      have hvalid' : t.heap.Valid (p.shift (m * blockSize i)) := by
        unfold Heap.Valid
        rw [hchunks]
        exact hvalid m (Nat.le_of_lt_succ hm)
      refine ⟨_, mountFromPool_of_valid hstart' hvalid', hstart', hchunks, ?_⟩
      intro j hj
      cases hj
      simp [FreeListAllocate.mounted]
  rcases hloop with ⟨t, hrun, -, hchunks, hslot⟩
  refine ⟨{ t with
    memPoolStart := t.memPoolStart.map fun a => a.shift ((cnt + 1 : ℕ) * blockSize i)
    memPoolSize := t.memPoolSize - (cnt + 1 : ℕ) * blockSize i }, ?_, hslot cnt rfl, hchunks⟩
  rw [takeFromPool, hrun, ok_bind, pure_eq_ok]

/-- A chunk has room for ten blocks of any slot. -/
theorem carveCount_chunk (i : Fin kSlotNum) (h : s.memPoolSize = kChunkSize) :
    s.carveCount i = 9 + 1 := by
  have hle := blockSize_le i
  apply if_pos
  rw [h]
  norm_num [kChunkSize, kFillBlockCnt]
  omega

/-- A slot that is filled from a new chunk begins with the tenth block of it. -/
theorem refill_head (s : FreeListAllocate) (i : Fin kSlotNum) :
    ∃ s', Counted.refill s i = .ok s' ∧
      s'.memorySlot i = some ⟨s.heap.chunks.length, 9 * blockSize i⟩ ∧
      s'.heap.chunks = s.heap.chunks ++ [kChunkSize] := by
  have hpos := blockSize_pos i
  have hle := blockSize_le i
  have hten : s.fillMemPool.carveCount i = 9 + 1 := carveCount_chunk i rfl
  have hvalid : ∀ j : ℕ, j ≤ 9 → s.fillMemPool.heap.Valid
      ((⟨s.heap.chunks.length, 0⟩ : Addr).shift (j * blockSize i)) := by
    intro j hj
    have hroom : (j : ℤ) * blockSize i ≤ 9 * 4096 := by
      apply mul_le_mul _ hle (by omega) (by norm_num)
      exact_mod_cast hj
    have hstart : 0 ≤ (j : ℤ) * blockSize i := mul_nonneg (Int.natCast_nonneg j) (by omega)
    refine ⟨?_, kChunkSize, ?_, ?_⟩
    · simp only [Addr.shift]
      omega
    · exact List.getElem?_concat_length
    · simp only [Addr.shift, kChunkSize]
      omega
  rcases takeFromPool_head rfl hvalid with ⟨s', hrun, hslot, hchunks⟩
  refine ⟨s', ?_, ?_, hchunks⟩
  · rw [Counted.refill, hten, hrun]
  · rw [hslot]
    simp [Addr.shift]

theorem writeNext_of_valid {heap : Heap} {a : Addr} (h : heap.Valid a) (q : Option Addr) :
    heap.writeNext (some a) q = .ok { heap with next := Function.update heap.next a q } := by
  rw [Heap.writeNext, orFail_some, ok_bind, require_of h]
  rfl

/-- The first block of a list is in its chunk. -/
theorem Lists.valid_head {owned : List Region} {a : Addr} (h : Lists s owned free)
    (hslot : s.memorySlot i = some a) : s.heap.Valid a := by
  have hlinked := h.linked i
  rw [hslot] at hlinked
  rcases hlinked.pop with ⟨as, has, -⟩
  have hmem : a ∈ free i := by
    rw [has]
    exact List.mem_cons_self
  exact valid_of_inside (h.partition.inside _ (List.mem_append_right owned (mem_freeRegions hmem)))

/-- A leftover can go behind the first block of a list. -/
theorem Layout.recycle (h : Layout s live pool free) (hleft : 8 ≤ s.memPoolSize)
    (hsmall : s.memPoolSize ≤ 4096)
    (htarget : ∀ j, slotAt (getIndex s.memPoolSize) = .ok j → s.memorySlot j ≠ none) :
    ∃ t, s.recycle = .ok t ∧ t.heap.chunks = s.heap.chunks := by
  rcases slotAt_of_small (by omega) hsmall with ⟨j, hj, -⟩
  rcases Option.ne_none_iff_exists'.1 (htarget j hj) with ⟨a, ha⟩
  have hpool : s.heap.Valid pool := by
    rcases h.lists.partition.inside _ List.mem_cons_self with ⟨-, hstart, n, hn, hend⟩
    simp only at hstart hn hend
    exact ⟨hstart, n, hn, by omega⟩
  have hhead : Heap.Valid { s.heap with next := Function.update s.heap.next pool (some a) } a :=
    h.lists.valid_head ha
  refine ⟨{ s with
    heap.next := Function.update (Function.update s.heap.next pool (some a)) a (some pool)
    memPoolStart := none
    memPoolSize := 0 }, ?_, rfl⟩
  rw [FreeListAllocate.recycle, if_pos hleft, hj, ok_bind]
  simp only [h.start, ha, writeNext_of_valid hpool, writeNext_of_valid hhead, ok_bind, pure_eq_ok]

/-- A call that recycles, with a list for what is left: the block is from a new chunk. -/
theorem Layout.allocate_recycling (h : Layout s live pool free) {n : ℤ} (h1 : 1 ≤ n)
    (hmax : n ≤ kMaxObjSize) (hslot : slotAt (getIndex n) = .ok i) (hempty : s.memorySlot i = none)
    (hleft : 8 ≤ s.memPoolSize) (hblock : s.memPoolSize < blockSize i)
    (htarget : ∀ j, slotAt (getIndex s.memPoolSize) = .ok j → s.memorySlot j ≠ none) :
    ∃ s', s.allocate n = .ok (s', some ⟨s.heap.chunks.length, 9 * blockSize i⟩) ∧
      s'.heap.chunks = s.heap.chunks ++ [kChunkSize] := by
  have hle := blockSize_le i
  have haligned : s.memPoolSize.tmod 8 = 0 := by
    rw [Int.tmod_eq_emod_of_nonneg h.size_nonneg]
    exact h.aligned
  -- the list that the leftover goes to is a cycle from now on, but not that of the slot
  rcases h.recycle hleft (by omega) htarget with ⟨t, hrecycle, hchunks⟩
  rcases refill_head t i with ⟨u, hrefill, hhead, hchunks'⟩
  rw [hchunks] at hhead hchunks'
  have hvalid : u.heap.Valid ⟨s.heap.chunks.length, 9 * blockSize i⟩ := by
    have hpos := blockSize_pos i
    refine ⟨by simp only; omega, kChunkSize, ?_, ?_⟩
    · rw [hchunks']
      exact List.getElem?_concat_length
    · simp only [kChunkSize]
      omega
  refine ⟨{ u with
    memorySlot :=
      Function.update u.memorySlot i (u.heap.next ⟨s.heap.chunks.length, 9 * blockSize i⟩) },
    ?_, hchunks'⟩
  rw [allocate_of_small h1 hmax, hslot, ok_bind, fillIfEmpty, if_pos hempty,
    Counted.fillSlot_two s i hblock, require_of haligned, ok_bind, hrecycle, ok_bind, hrefill, ok_bind,
    pop, hhead, Heap.readNext, orFail_some, ok_bind, require_of hvalid]
  rfl

end FreeListAllocate

/-! ## Blocks in use -/

namespace Block

variable {b c : Block}

theorem extent_small (h : b.n ≤ kMaxObjSize) :
    b.extent = ⟨b.addr, (getIndex b.n + 1) * 8⟩ :=
  if_neg (not_lt.2 h)

theorem extent_large (h : kMaxObjSize < b.n) : b.extent = ⟨b.addr, b.n⟩ := if_pos h

theorem extent_pos (h : 1 ≤ b.n) : 0 < b.extent.size := by
  rcases le_or_gt b.n kMaxObjSize with hsmall | hlarge
  · rcases slotAt_of_small h hsmall with ⟨i, -, hblock⟩
    have hpos := blockSize_pos i
    rw [extent_small hsmall]
    simp only
    omega
  · rw [extent_large hlarge]
    exact h

/-- The block is a whole chunk. -/
def Own (chunks : List ℤ) (b : Block) : Prop :=
  b.addr.offset = 0 ∧ chunks[b.addr.chunk]? = some b.n

theorem Own.append {chunks : List ℤ} (h : b.Own chunks) (n : ℤ) : b.Own (chunks ++ [n]) := by
  refine ⟨h.1, ?_⟩
  rw [List.getElem?_append_left (List.getElem?_eq_some_iff.1 h.2).1]
  exact h.2

/-- Two large blocks are not the same chunk. -/
theorem Own.chunk_ne {chunks : List ℤ} (hb : b.Own chunks) (hc : c.Own chunks)
    (hlarge : kMaxObjSize < b.n) (hlarge' : kMaxObjSize < c.n)
    (hdisjoint : b.extent.Disjoint c.extent) : b.addr.chunk ≠ c.addr.chunk := by
  intro heq
  rw [extent_large hlarge, extent_large hlarge'] at hdisjoint
  have hboth := hdisjoint heq
  simp only [hb.1, hc.1] at hboth
  unfold kMaxObjSize at hlarge hlarge'
  omega

/-- What is left where a chunk is given back. -/
theorem Own.release {chunks : List ℤ} (hc : c.Own chunks) (hne : b.addr.chunk ≠ c.addr.chunk) :
    c.Own (chunks.set b.addr.chunk 0) := by
  refine ⟨hc.1, ?_⟩
  rw [List.getElem?_set_ne hne]
  exact hc.2

end Block

namespace CountedClient

variable {outcomes : ℕ → Bool} {words : Addr → Option Addr} {s t : CountedClient}

/-- The pool, the free blocks and the blocks in use are a partition. -/
structure Ready (s : CountedClient) (pool : Addr) (free : Fin kSlotNum → List Addr) : Prop where
  layout : Layout s.alloc.alloc (s.live.map Block.extent) pool free
  sizes : ∀ b ∈ s.live, 1 ≤ b.n
  large : ∀ b ∈ s.live, kMaxObjSize < b.n →
    b.Own s.alloc.alloc.heap.chunks ∧ pool.chunk ≠ b.addr.chunk

/-- The constructor got no chunk: there are only large blocks. -/
structure Bare (s : CountedClient) : Prop where
  start : s.alloc.alloc.memPoolStart = none
  size : s.alloc.alloc.memPoolSize = kChunkSize
  slots : ∀ i, s.alloc.alloc.memorySlot i = none
  partition : Partition s.alloc.alloc.heap.chunks (s.live.map Block.extent)
  large : ∀ b ∈ s.live, kMaxObjSize < b.n ∧ b.Own s.alloc.alloc.heap.chunks

theorem perm_extent {bs : List Block} {i : ℕ} {b : Block} (h : bs[i]? = some b) :
    (bs.map Block.extent).Perm (b.extent :: (bs.eraseIdx i).map Block.extent) :=
  (Client.perm_cons_eraseIdx h).map Block.extent

/-! ### Small blocks -/

theorem Ready.allocate_small {pool : Addr} {free : Fin kSlotNum → List Addr} (h : Ready s pool free)
    {n : ℤ} {a : FreeListAllocate} {p : Option Addr} (h1 : 1 ≤ n) (hmax : n ≤ kMaxObjSize)
    (hkeep : ¬ s.alloc.alloc.Recycles n) (hcall : s.alloc.alloc.allocate n = .ok (a, p)) (m : ℕ) :
    ∃ pool' free', Ready ⟨⟨a, m⟩, p.toList.map (Block.mk · n) ++ s.live⟩ pool' free' := by
  rcases h.layout.allocate h1 hmax hkeep with ⟨a', q, pool', free', hcall', h', -⟩
  cases Except.ok.inj (hcall.symm.trans hcall')
  refine ⟨pool', free', ?_, ?_, ?_⟩
  · have hextent : Block.extent ⟨q, n⟩ = ⟨q, (getIndex n + 1) * 8⟩ := Block.extent_small hmax
    rw [← hextent] at h'
    exact h'
  · intro b hb
    rcases List.mem_cons.1 hb with rfl | hb
    · exact h1
    · exact h.sizes b hb
  · intro b hb hlarge
    rcases List.mem_cons.1 hb with rfl | hb
    · exact absurd hlarge (not_lt.2 hmax)
    rcases h.large b hb hlarge with ⟨hown, hne⟩
    -- the pool stays in its chunk, or is in one that no block was given
    rcases allocate_grown hmax hcall with ⟨hchunks, hpool⟩ | ⟨hchunks, hpool⟩
    · simp only [h'.start, h.layout.start, Option.map_some, Option.some.injEq] at hpool
      simp only [hchunks, hpool]
      exact ⟨hown, hne⟩
    · simp only [h'.start, Option.map_some, Option.some.injEq] at hpool
      simp only [hchunks, hpool]
      exact ⟨hown.append _, (List.getElem?_eq_some_iff.1 hown.2).1.ne'⟩

theorem Ready.deallocate_small {pool : Addr} {free : Fin kSlotNum → List Addr}
    (h : Ready s pool free) {i : ℕ} {b : Block} {a : FreeListAllocate} (hlive : s.live[i]? = some b)
    (hmax : b.n ≤ kMaxObjSize) (hcall : s.alloc.alloc.deallocate (some b.addr) b.n = .ok a) (m : ℕ) :
    ∃ free', Ready ⟨⟨a, m⟩, s.live.eraseIdx i⟩ pool free' := by
  have hlayout := h.layout.perm (perm_extent hlive)
  rw [Block.extent_small hmax] at hlayout
  rcases hlayout.deallocate (h.sizes b (List.mem_of_getElem? hlive)) hmax with
    ⟨a', free', hcall', h', -⟩
  cases Except.ok.inj (hcall.symm.trans hcall')
  -- no chunk is touched
  have hchunks : a.heap.chunks = s.alloc.alloc.heap.chunks := by
    rw [deallocate_eq (h.sizes b (List.mem_of_getElem? hlive)), if_neg (not_lt.2 hmax)] at hcall
    rcases bind_eq_ok.1 hcall with ⟨j, -, hmount⟩
    exact mount_chunks hmount
  refine ⟨free', h', ?_, ?_⟩
  · intro c hc
    exact h.sizes c (List.mem_of_mem_eraseIdx hc)
  · intro c hc hlarge
    rw [hchunks]
    exact h.large c (List.mem_of_mem_eraseIdx hc) hlarge

/-! ### Large blocks -/

/-- The new block is the new chunk. -/
theorem own_malloc (chunks : List ℤ) (n : ℤ) : Block.Own (chunks ++ [n]) ⟨⟨chunks.length, 0⟩, n⟩ :=
  ⟨rfl, List.getElem?_concat_length⟩

theorem Ready.malloc {pool : Addr} {free : Fin kSlotNum → List Addr} (h : Ready s pool free) {n : ℤ}
    (hlarge : kMaxObjSize < n) (m : ℕ) :
    Ready ⟨⟨{ s.alloc.alloc with heap := (s.alloc.alloc.heap.malloc n).1 }, m⟩,
      ⟨⟨s.alloc.alloc.heap.chunks.length, 0⟩, n⟩ :: s.live⟩ pool free where
  layout := by
    have hpos : 0 ≤ n := by
      unfold kMaxObjSize at hlarge
      omega
    have hnew := h.layout.malloc hpos
    rw [List.map_cons, Block.extent_large hlarge]
    exact hnew
  sizes := by
    intro b hb
    rcases List.mem_cons.1 hb with rfl | hb
    · unfold kMaxObjSize at hlarge
      simp only
      omega
    · exact h.sizes b hb
  large := by
    intro b hb hlarge'
    rcases List.mem_cons.1 hb with rfl | hb
    · refine ⟨own_malloc _ n, ?_⟩
      rcases h.layout.lists.partition.inside _ List.mem_cons_self with ⟨-, -, size, hsize, -⟩
      exact (List.getElem?_eq_some_iff.1 hsize).1.ne
    · rcases h.large b hb hlarge' with ⟨hown, hne⟩
      exact ⟨hown.append n, hne⟩

/-- A large block that is given back. -/
theorem free_of_deallocate {a b : FreeListAllocate} {x : Addr} {n : ℤ} (hlarge : kMaxObjSize < n)
    (hcall : a.deallocate (some x) n = .ok b) :
    b = { a with heap.chunks := a.heap.chunks.set x.chunk 0 } := by
  have h1 : 1 ≤ n := by
    unfold kMaxObjSize at hlarge
    omega
  rw [deallocate_eq h1, if_pos hlarge] at hcall
  rcases bind_eq_ok.1 hcall with ⟨heap, hfree, hcall⟩
  cases hcall
  rcases bind_eq_ok.1 hfree with ⟨_, -, hfree⟩
  cases hfree
  rfl

theorem Ready.deallocate_large {pool : Addr} {free : Fin kSlotNum → List Addr}
    (h : Ready s pool free) {i : ℕ} {b : Block} {a : FreeListAllocate} (hlive : s.live[i]? = some b)
    (hlarge : kMaxObjSize < b.n) (hcall : s.alloc.alloc.deallocate (some b.addr) b.n = .ok a) (m : ℕ) :
    Ready ⟨⟨a, m⟩, s.live.eraseIdx i⟩ pool free := by
  rw [free_of_deallocate hlarge hcall]
  have hlayout := h.layout.perm (perm_extent hlive)
  have hpartition := hlayout.lists.partition.tail
  have hextent := Block.extent_large hlarge
  rcases h.large b (List.mem_of_getElem? hlive) hlarge with ⟨hown, hne⟩
  constructor
  · rw [hextent] at hlayout
    apply hlayout.release hown.1 hown.2 hne
    intro r hr
    rcases List.mem_map.1 hr with ⟨c, hc, rfl⟩
    exact Block.extent_pos (h.sizes c (List.mem_of_mem_eraseIdx hc))
  · intro c hc
    exact h.sizes c (List.mem_of_mem_eraseIdx hc)
  · intro c hc hlarge'
    rcases h.large c (List.mem_of_mem_eraseIdx hc) hlarge' with ⟨hown', hne'⟩
    have hdisjoint := hpartition.head_disjoint c.extent
      (List.mem_append_left _ (List.mem_map_of_mem hc))
    exact ⟨hown'.release (hown.chunk_ne hown' hlarge hlarge' hdisjoint), hne'⟩

theorem Bare.malloc (h : Bare s) {n : ℤ} (hlarge : kMaxObjSize < n) (m : ℕ) :
    Bare ⟨⟨{ s.alloc.alloc with heap := (s.alloc.alloc.heap.malloc n).1 }, m⟩,
      ⟨⟨s.alloc.alloc.heap.chunks.length, 0⟩, n⟩ :: s.live⟩ where
  start := h.start
  size := h.size
  slots := h.slots
  partition := by
    have hpos : 0 ≤ n := by
      unfold kMaxObjSize at hlarge
      omega
    rw [List.map_cons, Block.extent_large hlarge]
    exact h.partition.grow hpos
  large := by
    intro b hb
    rcases List.mem_cons.1 hb with rfl | hb
    · exact ⟨hlarge, own_malloc _ n⟩
    · exact ⟨(h.large b hb).1, (h.large b hb).2.append n⟩

theorem Bare.deallocate (h : Bare s) {i : ℕ} {b : Block} {a : FreeListAllocate}
    (hlive : s.live[i]? = some b) (hcall : s.alloc.alloc.deallocate (some b.addr) b.n = .ok a) (m : ℕ) :
    Bare ⟨⟨a, m⟩, s.live.eraseIdx i⟩ := by
  rcases h.large b (List.mem_of_getElem? hlive) with ⟨hlarge, hown⟩
  rw [free_of_deallocate hlarge hcall]
  have hpartition := h.partition.perm (perm_extent hlive)
  have hextent := Block.extent_large hlarge
  refine ⟨h.start, h.size, h.slots, ?_, ?_⟩
  · rw [hextent] at hpartition
    apply hpartition.release hown.1 hown.2
    intro r hr hzero
    rcases List.mem_map.1 hr with ⟨c, hc, rfl⟩
    have hlarge' := (h.large c (List.mem_of_mem_eraseIdx hc)).1
    unfold kMaxObjSize at hlarge'
    exact absurd hzero (Block.extent_pos (by omega)).ne'
  · intro c hc
    rcases h.large c (List.mem_of_mem_eraseIdx hc) with ⟨hlarge', hown'⟩
    have hdisjoint := hpartition.head_disjoint c.extent (List.mem_map_of_mem hc)
    exact ⟨hlarge', hown'.release (hown.chunk_ne hown' hlarge hlarge' hdisjoint)⟩

/-! ### All calls -/

/-- Nothing can be cut off a pool that is null. -/
theorem takeFromPool_null {a b : FreeListAllocate} {i : Fin kSlotNum} {cnt : ℕ}
    (hstart : a.memPoolStart = none) : a.takeFromPool i (cnt + 1) ≠ .ok b := by
  intro hrun
  rcases bind_eq_ok.1 hrun with ⟨t, hloop, -⟩
  rw [List.range_succ_eq_map] at hloop
  rcases bind_eq_ok.1 hloop with ⟨u, hfirst, -⟩
  rcases bind_eq_ok.1 hfirst with ⟨heap, hend, -⟩
  unfold endList at hend
  rw [if_pos rfl, hstart] at hend
  rcases writeNext_ok hend with ⟨q, hq, -, -⟩
  cases hq

/-- Without a pool there is no small block to be had. -/
theorem Bare.not_ok (h : Bare s) {n : ℤ} (h1 : 1 ≤ n) (hmax : n ≤ kMaxObjSize)
    (r : FreeListAllocate × Option Addr) : s.alloc.alloc.allocate n ≠ .ok r := by
  intro hcall
  rw [allocate_of_small h1 hmax] at hcall
  rcases bind_eq_ok.1 hcall with ⟨i, -, hcall⟩
  rcases bind_eq_ok.1 hcall with ⟨a, hfill, -⟩
  have hroom : s.alloc.alloc.memPoolSize ≥ blockSize i := by
    have hle := blockSize_le i
    rw [h.size]
    unfold kChunkSize
    omega
  unfold fillIfEmpty at hfill
  rw [if_pos (h.slots i), fillSlot_succ, if_pos hroom, carveCount_chunk i h.size] at hfill
  exact takeFromPool_null h.start hfill

theorem new_inv (outcomes : ℕ → Bool) (words : Addr → Option Addr) :
    (∃ pool free, Ready ⟨Counted.new outcomes words, []⟩ pool free) ∨
      Bare ⟨Counted.new outcomes words, []⟩ := by
  cases houtcome : outcomes 0 with
  | true =>
      have hnew : Counted.new outcomes words = ⟨.new words, 1⟩ := by
        simp [Counted.new, Counted.malloc, houtcome, FreeListAllocate.new, Heap.malloc]
      rw [hnew]
      rcases (Client.start_inv words).layout with ⟨pool, free, hlayout⟩
      refine .inl ⟨pool, free, hlayout, ?_, ?_⟩
      · intro b hb
        cases hb
      · intro b hb
        cases hb
  | false =>
      have hnew : Counted.new outcomes words =
          ⟨⟨fun _ => none, none, kChunkSize, ⟨words, []⟩⟩, 1⟩ := by
        simp [Counted.new, Counted.malloc, houtcome]
      rw [hnew]
      -- the pool is null and has the size of a chunk
      refine .inr ⟨rfl, rfl, fun _ => rfl, ⟨?_, List.Pairwise.nil⟩, ?_⟩
      · intro r hr
        cases hr
      · intro b hb
        cases hb

/-- One call that recycles nothing keeps it. -/
theorem Step.inv {op : Client.Op} (hstep : Step outcomes s op t) (hkeep : ¬ s.Recycles op)
    (h : (∃ pool free, Ready s pool free) ∨ Bare s) :
    (∃ pool free, Ready t pool free) ∨ Bare t := by
  cases hstep with
  | @allocate n fuel alloc p hcall =>
      -- no block is returned, or a small one, or a chunk
      rcases le_or_gt n 0 with hnone | hpos
      · unfold Counted.allocate at hcall
        rw [if_pos hnone] at hcall
        cases hcall
        exact h
      rcases le_or_gt n kMaxObjSize with hmax | hlarge
      · have hother := (Counted.allocate_ok hpos hmax hcall).1
        rcases h with ⟨pool, free, h⟩ | h
        · exact .inl (h.allocate_small hpos hmax hkeep hother alloc.mallocs)
        · exact absurd hother (h.not_ok hpos hmax _)
      · unfold Counted.allocate at hcall
        rw [if_neg (not_le.2 hpos), if_pos hlarge] at hcall
        unfold Counted.malloc at hcall
        split at hcall
        · cases hcall
          rcases h with ⟨pool, free, h⟩ | h
          · exact .inl ⟨pool, free, h.malloc hlarge _⟩
          · exact .inr (h.malloc hlarge _)
        · cases hcall
          rcases h with ⟨pool, free, h⟩ | h
          · exact .inl ⟨pool, free, h.layout, h.sizes, h.large⟩
          · exact .inr ⟨h.start, h.size, h.slots, h.partition, h.large⟩
  | @deallocate i b alloc hlive hcall =>
      rcases h with ⟨pool, free, h⟩ | h
      · rcases le_or_gt b.n kMaxObjSize with hmax | hlarge
        · exact .inl ⟨pool, h.deallocate_small hlive hmax hcall _⟩
        · exact .inl ⟨pool, free, h.deallocate_large hlive hlarge hcall _⟩
      · exact .inr (h.deallocate hlive hcall _)
  | @store i b words hlive =>
      rcases h with ⟨pool, free, h⟩ | h
      · refine .inl ⟨pool, free, ?_, h.sizes, h.large⟩
        have hperm := perm_extent hlive
        exact ((h.layout.perm hperm).store (b.write words s.alloc.alloc.heap.next)
          fun a ha => if_neg ha).perm hperm.symm
      · exact .inr ⟨h.start, h.size, h.slots, h.partition, h.large⟩

/-- What holds in every state that is reached. -/
theorem Reaches.inv (h : Reaches outcomes words s) : (∃ pool free, Ready s pool free) ∨ Bare s := by
  induction h with
  | new => exact new_inv outcomes words
  | step _ hkeep hstep ih => exact hstep.inv hkeep ih

/-! ## When `Allocate` reports -/

theorem live_inside (h : (∃ pool free, Ready s pool free) ∨ Bare s) :
    ∀ c ∈ s.live, c.extent.Inside s.alloc.alloc.heap.chunks := by
  intro c hc
  have hmem := List.mem_map_of_mem (f := Block.extent) hc
  rcases h with ⟨pool, free, h⟩ | h
  · exact h.layout.lists.partition.inside _ (List.mem_cons_of_mem _ (List.mem_append_left _ hmem))
  · exact h.partition.inside _ hmem

/-- What lies in a new chunk is not in use. -/
theorem usable_of_new {chunks : List ℤ} {live : List Block} {b : Block} {m : ℤ}
    (hlive : ∀ c ∈ live, c.extent.Inside chunks) (hchunk : b.extent.start.chunk = chunks.length)
    (hinside : b.extent.Inside (chunks ++ [m])) : Usable (chunks ++ [m]) live b := by
  refine ⟨hinside, ?_⟩
  intro c hc heq
  rcases hlive c hc with ⟨-, -, k, hk, -⟩
  have hlt := (List.getElem?_eq_some_iff.1 hk).1
  rw [← heq, hchunk] at hlt
  exact absurd hlt (lt_irrefl _)

/-- A large block is what `malloc` returns. -/
theorem reports_large (h : (∃ pool free, Ready s pool free) ∨ Bare s) {n : ℤ}
    (hlarge : kMaxObjSize < n) : Reports outcomes s n := by
  have hpos : 0 < n := by
    unfold kMaxObjSize at hlarge
    omega
  have hcall : s.alloc.allocate outcomes 0 n = .ok (s.alloc.malloc outcomes n) := by
    rw [Counted.allocate, if_neg (not_le.2 hpos), if_pos hlarge]
    rfl
  have hextent : ∀ a, Block.extent ⟨a, n⟩ = ⟨a, n⟩ := fun a => Block.extent_large hlarge
  cases houtcome : outcomes s.alloc.mallocs with
  | true =>
      have hmalloc : s.alloc.malloc outcomes n =
          (⟨{ s.alloc.alloc with heap := (s.alloc.alloc.heap.malloc n).1 }, s.alloc.mallocs + 1⟩,
            some ⟨s.alloc.alloc.heap.chunks.length, 0⟩) := by
        simp [Counted.malloc, houtcome, Heap.malloc]
      refine ⟨0, _, _, hcall.trans (congrArg Except.ok hmalloc), ?_, ?_⟩
      · intro _
        refine ⟨_, rfl, usable_of_new (live_inside h) ?_ ?_⟩
        · rw [hextent]
        · rw [hextent]
          refine ⟨hpos.le, le_refl 0, n, List.getElem?_concat_length, ?_⟩
          exact (zero_add n).le
      · intro hnot
        exact absurd (.inr houtcome) hnot
  | false =>
      have hmalloc : s.alloc.malloc outcomes n = (⟨s.alloc.alloc, s.alloc.mallocs + 1⟩, none) := by
        simp [Counted.malloc, houtcome]
      refine ⟨0, _, _, hcall.trans (congrArg Except.ok hmalloc), ?_, fun _ => rfl⟩
      -- the one call of `malloc` was a failure, so nothing was obtained
      rintro (hsame | hlast)
      · exact absurd hsame (Nat.succ_ne_self _)
      · simp only [Nat.add_sub_cancel, houtcome] at hlast
        cases hlast

/-- Where a call that recycles returns, there was a list for the leftover. -/
theorem target_of_allocate {a b : FreeListAllocate} {n : ℤ} {p : Option Addr} {i : Fin kSlotNum}
    (h1 : 1 ≤ n) (hmax : n ≤ kMaxObjSize) (hslot : slotAt (getIndex n) = .ok i)
    (hempty : a.memorySlot i = none) (hblock : a.memPoolSize < blockSize i)
    (hcall : a.allocate n = .ok (b, p)) :
    ∀ j, 8 ≤ a.memPoolSize → slotAt (getIndex a.memPoolSize) = .ok j → a.memorySlot j ≠ none := by
  intro j hleft hj
  rw [allocate_of_small h1 hmax, hslot, ok_bind, fillIfEmpty, if_pos hempty,
    Counted.fillSlot_two a i hblock] at hcall
  rcases bind_eq_ok.1 hcall with ⟨_, hfill, -⟩
  rcases bind_eq_ok.1 hfill with ⟨_, -, hfill⟩
  rcases bind_eq_ok.1 hfill with ⟨t, hrecycle, -⟩
  rcases recycle_ok hleft hrecycle with ⟨j', q, -, hj', hq, -, -, hsame, -, -⟩
  cases Except.ok.inj (hj.symm.trans hj')
  rw [← hsame, hq]
  exact Option.some_ne_none q

/-- The block that the other allocator returns can be used. -/
theorem Ready.returns {pool : Addr} {free : Fin kSlotNum → List Addr} (h : Ready s pool free)
    {n : ℤ} (h1 : 1 ≤ n) (hmax : n ≤ kMaxObjSize)
    (htarget : ∀ i, slotAt (getIndex n) = .ok i → s.alloc.alloc.memorySlot i = none →
      s.alloc.alloc.memPoolSize < blockSize i → ∀ j, 8 ≤ s.alloc.alloc.memPoolSize →
        slotAt (getIndex s.alloc.alloc.memPoolSize) = .ok j → s.alloc.alloc.memorySlot j ≠ none) :
    ∃ a q, s.alloc.alloc.allocate n = .ok (a, some q) ∧ Usable a.heap.chunks s.live ⟨q, n⟩ := by
  have hextent : ∀ q, Block.extent ⟨q, n⟩ = ⟨q, (getIndex n + 1) * 8⟩ :=
    fun q => Block.extent_small hmax
  by_cases hrecycles : s.alloc.alloc.Recycles n
  · rcases hrecycles with ⟨i, hslot, hempty, hleft, hblock⟩
    rcases h.layout.allocate_recycling h1 hmax hslot hempty hleft hblock fun j =>
      htarget i hslot hempty hblock j hleft with ⟨a, hcall, hchunks⟩
    refine ⟨a, _, hcall, ?_⟩
    rw [hchunks]
    have hsize := slotAt_ok hslot
    have hpos := blockSize_pos i
    have hle := blockSize_le i
    have hregion : (getIndex n + 1) * 8 = blockSize i := by
      rw [blockSize, hsize]
    apply usable_of_new (live_inside (.inl ⟨pool, free, h⟩))
    · rw [hextent]
    · rw [hextent, hregion]
      refine ⟨by simp only; omega, by simp only; omega, kChunkSize, List.getElem?_concat_length, ?_⟩
      simp only [kChunkSize]
      omega
  · rcases h.layout.allocate h1 hmax hrecycles with ⟨a, q, pool', free', hcall, h', -⟩
    refine ⟨a, q, hcall, ?_⟩
    have hpartition := h'.lists.partition.tail
    rw [← hextent] at hpartition
    refine ⟨hpartition.inside _ List.mem_cons_self, ?_⟩
    intro c hc
    exact hpartition.head_disjoint _ (List.mem_append_left _ (List.mem_map_of_mem hc))

end CountedClient

open CountedClient

/-- Whatever the outcomes of `malloc` are, the one of the constructor included, and in
every state behind calls that recycle nothing: `Allocate` reports exactly if it is
served. -/
theorem reports_iff (outcomes : ℕ → Bool) (words : Addr → Option Addr) {s : CountedClient}
    (h : Reaches outcomes words s) {n : ℤ} (hn : 0 < n) :
    Reports outcomes s n ↔ Served outcomes s n := by
  rcases le_or_gt n kMaxObjSize with hmax | hlarge
  case inr => exact iff_of_true (reports_large h.inv hlarge) (.inl hlarge)
  constructor
  · rintro ⟨fuel, alloc, p, hcall, -, -⟩
    rcases Counted.allocate_ok hn hmax hcall with ⟨hother, -, i, hslot, hsupplied⟩
    rcases h.inv with ⟨pool, free, hready⟩ | hbare
    case inr => exact absurd hother (hbare.not_ok hn hmax _)
    refine .inr ⟨i, hslot, ?_⟩
    by_cases hempty : s.alloc.alloc.memorySlot i = none
    case neg => exact .inl hempty
    by_cases hblock : blockSize i ≤ s.alloc.alloc.memPoolSize
    · refine .inr (.inl ⟨?_, hblock⟩)
      rw [hready.layout.start]
      exact Option.some_ne_none pool
    · have hlater := (hsupplied.resolve_left (not_not.2 hempty)).resolve_left hblock
      exact .inr (.inr ⟨not_le.1 hblock,
        target_of_allocate hn hmax hslot hempty (not_le.1 hblock) hother, hlater⟩)
  · intro hserved
    rcases hserved.resolve_left (not_lt.2 hmax) with ⟨i, hslot, hcases⟩
    rcases h.inv with ⟨pool, free, hready⟩ | hbare
    · have htarget : ∀ i', slotAt (getIndex n) = .ok i' → s.alloc.alloc.memorySlot i' = none →
          s.alloc.alloc.memPoolSize < blockSize i' → ∀ j, 8 ≤ s.alloc.alloc.memPoolSize →
            slotAt (getIndex s.alloc.alloc.memPoolSize) = .ok j →
              s.alloc.alloc.memorySlot j ≠ none := by
        intro i' hslot' hempty hblock
        cases Except.ok.inj (hslot.symm.trans hslot')
        rcases hcases with hne | ⟨-, hroom⟩ | ⟨-, htarget, -⟩
        · exact absurd hempty hne
        · exact absurd hroom (not_le.2 hblock)
        · exact htarget
      rcases hready.returns hn hmax htarget with ⟨a, q, hother, husable⟩
      have hsupplied : s.alloc.alloc.memorySlot i ≠ none ∨ Counted.Supplied outcomes s.alloc i := by
        rcases hcases with hne | ⟨-, hroom⟩ | ⟨-, -, hlater⟩
        · exact .inl hne
        · exact .inr (.inl hroom)
        · exact .inr (.inr hlater)
      rcases Counted.allocate_returns hn hmax hslot hother hsupplied with ⟨fuel, t, hcall, rfl⟩
      have hobtained := (Counted.allocate_ok hn hmax hcall).2.1
      exact ⟨fuel, t, some q, hcall, fun _ => ⟨q, rfl, husable⟩, fun hnot => absurd hobtained hnot⟩
    · -- the pool that is not there seems to have room
      have hle := blockSize_le i
      have hsize := hbare.size
      unfold kChunkSize at hsize
      rcases hcases with hne | ⟨hstart, -⟩ | ⟨hless, -, -⟩
      · exact absurd (hbare.slots i) hne
      · exact absurd hbare.start hstart
      · omega

theorem reports_iff_first :
    Reports (fun k => k = 0) ⟨Counted.new (fun k => k = 0) fun _ => none, []⟩ 8 ↔
      Served (fun k => k = 0) ⟨Counted.new (fun k => k = 0) fun _ => none, []⟩ 8 :=
  reports_iff (fun k => k = 0) (fun _ => none) .new (by norm_num)

/-- The first call of `malloc` fails, and the pool is used all the same. -/
theorem lost_pool_used :
    Reaches (fun _ => false) (fun _ => none) ⟨Counted.new (fun _ => false) fun _ => none, []⟩ ∧
      ¬ Reports (fun _ => false) ⟨Counted.new (fun _ => false) fun _ => none, []⟩ 8 := by
  refine ⟨.new, ?_⟩
  rintro ⟨fuel, alloc, p, hcall, -, -⟩
  rcases new_inv (fun _ => false) fun _ => none with ⟨pool, free, h⟩ | h
  · have hstart := h.layout.start
    cases hstart
  · have hother := (Counted.allocate_ok (by norm_num) (by decide) hcall).1
    exact absurd hother (h.not_ok (by norm_num) (by decide) _)

end Smallkv
