import Smallkv.Memory.PoolArithmetic

/-!
# Memory.Outcomes — the allocator where `malloc` may fail

The calls of `malloc` are counted, and `outcomes` says of each whether it
succeeds. A refill that fails tells nobody: `fill_slot` calls itself until a
refill succeeds, and never returns if none does. Where it returns the slots and
the pool are what they are where `malloc` never fails (`fillSlot_ok`), and it
returns as soon as that allocator does and there is a chunk for it
(`fillSlot_returns`).
-/

namespace Smallkv

open Fallible Regions FreeListAllocate

/-- The allocator, and the number of calls of `malloc` it has made. -/
structure Counted where
  alloc : FreeListAllocate
  mallocs : ℕ

namespace Counted

variable (outcomes : ℕ → Bool)

/-- `malloc(n)`; null where it fails. -/
def malloc (s : Counted) (n : ℤ) : Counted × Option Addr :=
  if outcomes s.mallocs then
    let (heap, chunk) := s.alloc.heap.malloc n
    (⟨{ s.alloc with heap := heap }, s.mallocs + 1⟩, some chunk)
  else (⟨s.alloc, s.mallocs + 1⟩, none)

/-- The constructor: the pool has its size whether it was obtained or not. -/
def new (words : Addr → Option Addr) : Counted :=
  let s : Counted :=
    { alloc :=
        { memorySlot := fun _ => none
          memPoolStart := none
          memPoolSize := 0
          heap := ⟨words, []⟩ }
      mallocs := 0 }
  let (s, chunk) := malloc outcomes s kChunkSize
  { s with alloc := { s.alloc with memPoolStart := chunk, memPoolSize := kChunkSize } }

/-- `fill_mem_pool`: without a chunk the size stays as it is. -/
def fillMemPool (s : Counted) : Counted :=
  let (s, chunk) := malloc outcomes s kChunkSize
  if chunk = none then { s with alloc := { s.alloc with memPoolStart := none } }
  else { s with alloc := { s.alloc with memPoolStart := chunk, memPoolSize := kChunkSize } }

/-- `fill_slot` calls itself once it has called `fill_mem_pool`. -/
def fillSlot : ℕ → Counted → Fin kSlotNum → Exec Counted
  | 0, _, _ => .error .endless
  | fuel + 1, s, slotIndex =>
    if s.alloc.memPoolSize ≥ kFillBlockCnt * blockSize slotIndex then do
      let alloc ← s.alloc.takeFromPool slotIndex kFillBlockCnt
      pure { s with alloc := alloc }
    else if s.alloc.memPoolSize ≥ blockSize slotIndex then do
      let cnt := (s.alloc.memPoolSize.tdiv (blockSize slotIndex)).toNat
      let alloc ← s.alloc.takeFromPool slotIndex cnt
      pure { s with alloc := alloc }
    else do
      require .assertion (s.alloc.memPoolSize.tmod 8 = 0)
      let alloc ← s.alloc.recycle
      -- nobody looks whether there is a pool now
      fillSlot fuel (fillMemPool outcomes { s with alloc := alloc }) slotIndex

def fillIfEmpty (fuel : ℕ) (s : Counted) (slotIndex : Fin kSlotNum) : Exec Counted :=
  if s.alloc.memorySlot slotIndex = none then fillSlot outcomes fuel s slotIndex else pure s

/-- `Allocate`, with the pointer it returns. -/
def allocate (fuel : ℕ) (s : Counted) (n : ℤ) : Exec (Counted × Option Addr) :=
  if n ≤ 0 then pure (s, none)
  else if n > kMaxObjSize then pure (malloc outcomes s n)
  else do
    let slotIndex ← slotAt (getIndex n)
    let s ← fillIfEmpty outcomes fuel s slotIndex
    let ret := s.alloc.memorySlot slotIndex
    let next ← s.alloc.heap.readNext ret
    pure
      ({ s with
          alloc := { s.alloc with memorySlot := Function.update s.alloc.memorySlot slotIndex next } },
        ret)

variable {outcomes} {s t : Counted} {i : Fin kSlotNum} {fuel : ℕ}

/-! ## Refills -/

theorem fillMemPool_true (h : outcomes s.mallocs = true) :
    fillMemPool outcomes s = ⟨s.alloc.fillMemPool, s.mallocs + 1⟩ := by
  simp [fillMemPool, malloc, h, FreeListAllocate.fillMemPool]

/-- An allocator whose pool was lost. -/
def lost (a : FreeListAllocate) : FreeListAllocate := { a with memPoolStart := none }

@[simp] theorem lost_memPoolSize (a : FreeListAllocate) : (lost a).memPoolSize = a.memPoolSize := rfl

theorem fillMemPool_false (h : outcomes s.mallocs = false) :
    fillMemPool outcomes s = ⟨lost s.alloc, s.mallocs + 1⟩ := by
  simp [fillMemPool, malloc, h, lost]

/-- As where `malloc` never fails, up to the refill. -/
theorem fillSlot_succ (fuel : ℕ) (s : Counted) (i : Fin kSlotNum) :
    fillSlot outcomes (fuel + 1) s i =
      if s.alloc.memPoolSize ≥ blockSize i then
        s.alloc.takeFromPool i (s.alloc.carveCount i) >>= fun alloc => .ok { s with alloc := alloc }
      else (do
        require .assertion (s.alloc.memPoolSize.tmod 8 = 0)
        let alloc ← s.alloc.recycle
        fillSlot outcomes fuel (fillMemPool outcomes { s with alloc := alloc }) i) := by
  have hpos := blockSize_pos i
  rw [fillSlot, carveCount]
  by_cases hten : s.alloc.memPoolSize ≥ kFillBlockCnt * blockSize i
  · have hone : s.alloc.memPoolSize ≥ blockSize i := by
      unfold kFillBlockCnt at hten
      omega
    rw [if_pos hten, if_pos hone, if_pos hten]
    rfl
  · rw [if_neg hten, if_neg hten]
    by_cases hone : s.alloc.memPoolSize ≥ blockSize i
    · rw [if_pos hone, if_pos hone, if_pos hone]
      rfl
    · rw [if_neg hone, if_neg hone]

/-- Behind `recycle` nothing of the pool is left. -/
theorem recycle_used {a b : FreeListAllocate} (h : a.recycle = .ok b)
    (haligned : a.memPoolSize.tmod 8 = 0) : b.memPoolSize < 8 ∧ b.memPoolSize.tmod 8 = 0 := by
  unfold recycle at h
  split at h
  · rcases bind_eq_ok.1 h with ⟨j, -, h⟩
    rcases bind_eq_ok.1 h with ⟨heap, -, h⟩
    rcases bind_eq_ok.1 h with ⟨heap', -, h⟩
    cases h
    exact ⟨show (0 : ℤ) < 8 by norm_num, rfl⟩
  · rename_i hnone
    cases h
    exact ⟨not_le.1 hnone, haligned⟩

theorem recycle_used_up {a : FreeListAllocate} (h : a.memPoolSize < 8) : a.recycle = .ok a :=
  if_neg (not_le.2 h)

/-- The blocks that a slot gets from a new chunk. -/
def refill (a : FreeListAllocate) (i : Fin kSlotNum) : Exec FreeListAllocate :=
  a.fillMemPool.takeFromPool i (a.fillMemPool.carveCount i)

theorem refill_lost (a : FreeListAllocate) (i : Fin kSlotNum) : refill (lost a) i = refill a i := by
  have hsame : (lost a).fillMemPool = a.fillMemPool := rfl
  rw [refill, hsame, refill]

theorem fillSlot_two (a : FreeListAllocate) (i : Fin kSlotNum) (hblock : a.memPoolSize < blockSize i) :
    FreeListAllocate.fillSlot 2 a i = (do
      require .assertion (a.memPoolSize.tmod 8 = 0)
      let b ← a.recycle
      refill b i) := by
  have hnew : ∀ b : FreeListAllocate, FreeListAllocate.fillSlot 1 b.fillMemPool i = refill b i := by
    intro b
    rw [FreeListAllocate.fillSlot_succ, if_pos (blockSize_le_fillMemPool b i), refill]
  rw [FreeListAllocate.fillSlot_succ, if_neg (not_le.2 hblock)]
  simp only [hnew]

/-- A refill that succeeds: the slot gets its blocks. -/
theorem fillSlot_refilled (h : outcomes s.mallocs = true) (fuel : ℕ) :
    fillSlot outcomes (fuel + 1) (fillMemPool outcomes s) i =
      refill s.alloc i >>= fun alloc => .ok ⟨alloc, s.mallocs + 1⟩ := by
  rw [fillMemPool_true h, fillSlot_succ, if_pos (blockSize_le_fillMemPool s.alloc i)]
  rfl

/-- A refill that fails, with a pool that is used up: `fill_slot` tries again. -/
theorem fillSlot_again (h : outcomes s.mallocs = false) (hsize : s.alloc.memPoolSize < 8)
    (haligned : s.alloc.memPoolSize.tmod 8 = 0) (fuel : ℕ) :
    fillSlot outcomes (fuel + 1) (fillMemPool outcomes s) i =
      fillSlot outcomes fuel (fillMemPool outcomes (fillMemPool outcomes s)) i := by
  have hpos := blockSize_pos i
  have hless : ¬ (lost s.alloc).memPoolSize ≥ blockSize i := by
    rw [lost_memPoolSize]
    omega
  have hrecycle : (lost s.alloc).recycle = .ok (lost s.alloc) := recycle_used_up hsize
  have hassert : (lost s.alloc).memPoolSize.tmod 8 = 0 := haligned
  rw [fillMemPool_false h, fillSlot_succ, if_neg hless, require_of hassert, ok_bind, hrecycle, ok_bind]

/-- What returns in the end is the first refill that succeeded. -/
theorem fillSlot_retried (hsize : s.alloc.memPoolSize < 8) (haligned : s.alloc.memPoolSize.tmod 8 = 0)
    (hrun : fillSlot outcomes fuel (fillMemPool outcomes s) i = .ok t) :
    refill s.alloc i = .ok t.alloc ∧ s.mallocs < t.mallocs ∧ outcomes (t.mallocs - 1) = true := by
  -- each failure leaves an allocator with a pool that is used up, as the first one was
  induction fuel generalizing s with
  | zero => cases hrun
  | succ fuel ih =>
      cases houtcome : outcomes s.mallocs with
      | true =>
          rw [fillSlot_refilled houtcome] at hrun
          rcases bind_eq_ok.1 hrun with ⟨alloc, htake, hrun⟩
          cases hrun
          exact ⟨htake, Nat.lt_succ_self _, houtcome⟩
      | false =>
          rw [fillSlot_again houtcome hsize haligned] at hrun
          have hfailed := fillMemPool_false houtcome
          rcases ih (by rw [hfailed]; exact hsize) (by rw [hfailed]; exact haligned) hrun with
            ⟨htake, hlt, hlast⟩
          rw [hfailed] at htake hlt
          rw [refill_lost] at htake
          exact ⟨htake, (Nat.lt_succ_self _).trans hlt, hlast⟩

theorem fillSlot_retries (hsize : s.alloc.memPoolSize < 8) (haligned : s.alloc.memPoolSize.tmod 8 = 0)
    {d : ℕ} (houtcome : outcomes (s.mallocs + d) = true) {a : FreeListAllocate}
    (hrefill : refill s.alloc i = .ok a) :
    ∃ fuel t, fillSlot outcomes fuel (fillMemPool outcomes s) i = .ok t ∧ t.alloc = a := by
  -- on the number of calls of `malloc` before the one that is known to succeed
  induction d generalizing s with
  | zero =>
      refine ⟨1, ⟨a, s.mallocs + 1⟩, ?_, rfl⟩
      rw [fillSlot_refilled houtcome, hrefill, ok_bind]
  | succ d ih =>
      cases hnow : outcomes s.mallocs with
      | true =>
          refine ⟨1, ⟨a, s.mallocs + 1⟩, ?_, rfl⟩
          rw [fillSlot_refilled hnow, hrefill, ok_bind]
      | false =>
          have hfailed := fillMemPool_false hnow
          have hnext : outcomes ((fillMemPool outcomes s).mallocs + d) = true := by
            have hsum : s.mallocs + 1 + d = s.mallocs + (d + 1) := by omega
            rw [hfailed]
            simp only [hsum, houtcome]
          have hrefill' : refill (fillMemPool outcomes s).alloc i = .ok a := by
            rw [hfailed]
            simp only [refill_lost, hrefill]
          rcases ih (by rw [hfailed]; exact hsize) (by rw [hfailed]; exact haligned) hnext hrefill' with
            ⟨fuel, t, hrun, ht⟩
          refine ⟨fuel + 1, t, ?_, ht⟩
          rw [fillSlot_again hnow hsize haligned, hrun]

/-- Without another chunk `fill_slot` never ends. -/
theorem fillSlot_endless (hsize : s.alloc.memPoolSize < 8) (haligned : s.alloc.memPoolSize.tmod 8 = 0)
    (hfail : ∀ k, s.mallocs ≤ k → outcomes k = false) (fuel : ℕ) :
    fillSlot outcomes fuel (fillMemPool outcomes s) i = .error .endless := by
  induction fuel generalizing s with
  | zero => rfl
  | succ fuel ih =>
      have hnow := hfail s.mallocs (Nat.le_refl _)
      have hfailed := fillMemPool_false hnow
      rw [fillSlot_again hnow hsize haligned]
      apply ih
      · rw [hfailed]
        exact hsize
      · rw [hfailed]
        exact haligned
      · intro k hk
        rw [hfailed] at hk
        exact hfail k ((Nat.le_succ _).trans hk)

/-! ## The two allocators -/

/-- There is a block for the slot, or some call of `malloc` is going to succeed. -/
def Supplied (outcomes : ℕ → Bool) (s : Counted) (i : Fin kSlotNum) : Prop :=
  blockSize i ≤ s.alloc.memPoolSize ∨ ∃ k, s.mallocs ≤ k ∧ outcomes k = true

/-- All calls of `malloc` that were made after `s`, if any, were failures up to the
last one, which was not. -/
def Obtained (outcomes : ℕ → Bool) (s t : Counted) : Prop :=
  t.mallocs = s.mallocs ∨ outcomes (t.mallocs - 1) = true

/-- What returns is what the other allocator returns. -/
theorem fillSlot_ok (hrun : fillSlot outcomes fuel s i = .ok t) :
    FreeListAllocate.fillSlot 2 s.alloc i = .ok t.alloc ∧ Supplied outcomes s i ∧
      Obtained outcomes s t := by
  cases fuel with
  | zero => cases hrun
  | succ fuel =>
      rw [fillSlot_succ] at hrun
      split at hrun
      · rename_i hblock
        rcases bind_eq_ok.1 hrun with ⟨alloc, htake, hrun⟩
        cases hrun
        refine ⟨?_, .inl hblock, .inl rfl⟩
        rw [FreeListAllocate.fillSlot_succ, if_pos hblock, htake]
      · rename_i hblock
        rcases bind_eq_ok.1 hrun with ⟨_, hassert, hrun⟩
        rcases bind_eq_ok.1 hrun with ⟨b, hrecycle, hrun⟩
        have haligned := require_eq_ok.1 hassert
        rcases recycle_used hrecycle haligned with ⟨hless, haligned'⟩
        rcases fillSlot_retried (s := { s with alloc := b }) hless haligned' hrun with
          ⟨hrefill, hlt, hlast⟩
        simp only at hlt
        refine ⟨?_, .inr ⟨t.mallocs - 1, by omega, hlast⟩, .inr hlast⟩
        rw [fillSlot_two _ _ (not_le.1 hblock), require_of haligned, ok_bind, hrecycle, ok_bind]
        exact hrefill

/-- Where the other allocator returns and there is memory, this one does. -/
theorem fillSlot_returns {a : FreeListAllocate}
    (hrun : FreeListAllocate.fillSlot 2 s.alloc i = .ok a) (hsupplied : Supplied outcomes s i) :
    ∃ fuel t, fillSlot outcomes fuel s i = .ok t ∧ t.alloc = a := by
  by_cases hblock : s.alloc.memPoolSize ≥ blockSize i
  · rw [FreeListAllocate.fillSlot_succ, if_pos hblock] at hrun
    refine ⟨1, { s with alloc := a }, ?_, rfl⟩
    rw [fillSlot_succ, if_pos hblock, hrun, ok_bind]
  · rcases hsupplied.resolve_left hblock with ⟨k, hk, houtcome⟩
    rw [fillSlot_two _ _ (not_le.1 hblock)] at hrun
    rcases bind_eq_ok.1 hrun with ⟨_, hassert, hrun⟩
    rcases bind_eq_ok.1 hrun with ⟨b, hrecycle, hrun⟩
    have haligned := require_eq_ok.1 hassert
    rcases recycle_used hrecycle haligned with ⟨hless, haligned'⟩
    rcases Nat.exists_eq_add_of_le hk with ⟨d, rfl⟩
    rcases fillSlot_retries (s := { s with alloc := b }) hless haligned' houtcome hrun with
      ⟨fuel, t, hfill, ht⟩
    refine ⟨fuel + 1, t, ?_, ht⟩
    rw [fillSlot_succ, if_neg hblock, require_of haligned, ok_bind, hrecycle, ok_bind, hfill]

theorem fillIfEmpty_ok (hrun : fillIfEmpty outcomes fuel s i = .ok t) :
    s.alloc.fillIfEmpty i = .ok t.alloc ∧ Obtained outcomes s t ∧
      (s.alloc.memorySlot i ≠ none ∨ Supplied outcomes s i) := by
  unfold fillIfEmpty at hrun
  unfold FreeListAllocate.fillIfEmpty
  split at hrun
  · rename_i hempty
    rw [if_pos hempty]
    rcases fillSlot_ok hrun with ⟨hother, hsupplied, hobtained⟩
    exact ⟨hother, hobtained, .inr hsupplied⟩
  · rename_i hne
    rw [if_neg hne]
    cases hrun
    exact ⟨rfl, .inl rfl, .inl hne⟩

theorem fillIfEmpty_returns {a : FreeListAllocate} (hrun : s.alloc.fillIfEmpty i = .ok a)
    (hsupplied : s.alloc.memorySlot i ≠ none ∨ Supplied outcomes s i) :
    ∃ fuel t, fillIfEmpty outcomes fuel s i = .ok t ∧ t.alloc = a := by
  unfold FreeListAllocate.fillIfEmpty at hrun
  unfold fillIfEmpty
  by_cases hempty : s.alloc.memorySlot i = none
  · rw [if_pos hempty] at hrun
    simp only [if_pos hempty]
    exact fillSlot_returns hrun (hsupplied.resolve_left (not_not.2 hempty))
  · rw [if_neg hempty] at hrun
    simp only [if_neg hempty]
    cases hrun
    exact ⟨0, s, rfl, rfl⟩

theorem allocate_of_small {n : ℤ} (h1 : 1 ≤ n) (hmax : n ≤ kMaxObjSize) (fuel : ℕ) (s : Counted) :
    allocate outcomes fuel s n = (do
      let i ← slotAt (getIndex n)
      let t ← fillIfEmpty outcomes fuel s i
      let r ← t.alloc.pop i
      pure ({ t with alloc := r.1 }, r.2)) := by
  have hsmall : ¬ n ≤ 0 := by omega
  have hslots : ¬ n > kMaxObjSize := not_lt.2 hmax
  rw [allocate, if_neg hsmall, if_neg hslots]
  simp only [pop, bind_assoc, pure_bind]

/-- A call for a small block returns what the other allocator returns. -/
theorem allocate_ok {n : ℤ} {p : Option Addr} (h1 : 1 ≤ n) (hmax : n ≤ kMaxObjSize)
    (hrun : allocate outcomes fuel s n = .ok (t, p)) :
    s.alloc.allocate n = .ok (t.alloc, p) ∧ Obtained outcomes s t ∧
      ∃ i, slotAt (getIndex n) = .ok i ∧ (s.alloc.memorySlot i ≠ none ∨ Supplied outcomes s i) := by
  rw [allocate_of_small h1 hmax] at hrun
  rcases bind_eq_ok.1 hrun with ⟨i, hslot, hrun⟩
  rcases bind_eq_ok.1 hrun with ⟨u, hfill, hrun⟩
  rcases bind_eq_ok.1 hrun with ⟨r, hpop, hrun⟩
  cases hrun
  rcases fillIfEmpty_ok hfill with ⟨hother, hobtained, hsupplied⟩
  refine ⟨?_, hobtained, i, hslot, hsupplied⟩
  rw [FreeListAllocate.allocate_of_small h1 hmax, hslot, ok_bind, hother, ok_bind, hpop]

theorem allocate_returns {n : ℤ} {a : FreeListAllocate} {p : Option Addr} (h1 : 1 ≤ n)
    (hmax : n ≤ kMaxObjSize) (hslot : slotAt (getIndex n) = .ok i)
    (hrun : s.alloc.allocate n = .ok (a, p))
    (hsupplied : s.alloc.memorySlot i ≠ none ∨ Supplied outcomes s i) :
    ∃ fuel t, allocate outcomes fuel s n = .ok (t, p) ∧ t.alloc = a := by
  rw [FreeListAllocate.allocate_of_small h1 hmax, hslot, ok_bind] at hrun
  rcases bind_eq_ok.1 hrun with ⟨b, hfill, hpop⟩
  rcases fillIfEmpty_returns hfill hsupplied with ⟨fuel, u, hfill', rfl⟩
  refine ⟨fuel, { u with alloc := a }, ?_, rfl⟩
  rw [allocate_of_small h1 hmax, hslot, ok_bind, hfill', ok_bind, hpop, ok_bind, pure_eq_ok]

end Counted

end Smallkv
