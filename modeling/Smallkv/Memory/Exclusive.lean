import Smallkv.Memory.FreeLists

/-!
# Memory.Exclusive — no block has two owners

A client allocates, frees and writes to its blocks in any order. As long as the
allocator recycles nothing, memory stays a partition and every call returns;
a call that recycles leaves a list without an end. `exclusive_iff` puts the two
together, and `leftover_makes_cycle` is a run in which it happens.
-/

namespace Smallkv

open Fallible Regions FreeListAllocate

/-! ## What is owed to a client -/

namespace Client

/-- Blocks of 1 to 4096 bytes are asked for. -/
def Op.Proper : Op → Prop
  | .allocate n => 1 ≤ n ∧ n ≤ 4096
  | .deallocate _ => True
  | .store _ _ => True

/-- The call recycles what is left of a pool. -/
def Recycles (s : Client) : Op → Prop
  | .allocate n => s.alloc.Recycles n
  | .deallocate _ => False
  | .store _ _ => False

/-- The blocks in use. -/
def regions (s : Client) : List Region := s.live.map Block.region

/-- What the allocator owes its client, for the lists `free` of the slots: each
list ends and so is not a cycle, no two have a block in common, every block lies
inside a chunk and none overlaps a block in use. -/
structure SlotLists (s : Client) (free : Fin kSlotNum → List Addr) : Prop where
  linked : ∀ i, Linked s.alloc.heap.next (s.alloc.memorySlot i) (free i)
  acyclic : ∀ i, (free i).Nodup
  disjoint : ∀ i j, i ≠ j → (free i).Disjoint (free j)
  inside : ∀ i, ∀ a ∈ free i, Region.Inside s.alloc.heap.chunks ⟨a, blockSize i⟩
  unused : ∀ i, ∀ a ∈ free i, ∀ r ∈ s.regions, Region.Disjoint ⟨a, blockSize i⟩ r

/-- No memory has two owners: the slots hold lists of unused blocks, the unused
end of the pool is not in use, and blocks in use do not overlap. -/
structure Exclusive (s : Client) : Prop where
  slots : ∃ free, SlotLists s free
  pool : ∀ p, s.alloc.memPoolStart = some p → ∀ r ∈ s.regions,
    Region.Disjoint ⟨p, s.alloc.memPoolSize⟩ r
  live : s.regions.Pairwise Region.Disjoint

/-- The blocks in use, the free blocks and the pool are a partition. -/
structure Inv (s : Client) : Prop where
  layout : ∃ pool free, Layout s.alloc s.regions pool free
  sizes : ∀ b ∈ s.live, 1 ≤ b.n ∧ b.n ≤ 4096

theorem start_inv (words : Addr → Option Addr) : Inv (start words) where
  layout := by
    refine ⟨⟨0, 0⟩, fun _ => [], rfl, rfl, fun _ => rfl, ?_⟩
    have hnone : freeRegions (fun _ => []) = [] := by
      unfold freeRegions
      exact List.flatMap_eq_nil_iff.2 fun _ _ => rfl
    have hempty : Partition [] [] := ⟨by simp, List.Pairwise.nil⟩
    rw [hnone]
    exact hempty.grow (by norm_num [kChunkSize])
  sizes := by
    intro b hb
    cases hb

variable {s t : Client}

theorem Inv.exclusive (h : Inv s) : Exclusive s := by
  rcases h.layout with ⟨pool, free, hlayout⟩
  have hpartition := hlayout.lists.partition
  have happart := List.pairwise_append.1 hpartition.tail.apart
  constructor
  · refine ⟨free, hlayout.lists.linked, fun i => (hlayout.lists.linked i).nodup, ?_, ?_, ?_⟩
    · intro i j hij a hi hj
      -- as blocks of two sizes these would be two regions
      have hne : Region.mk a (blockSize i) ≠ ⟨a, blockSize j⟩ := by
        intro heq
        have hsize : blockSize i = blockSize j := congrArg Region.size heq
        unfold blockSize at hsize
        exact hij (Fin.ext (by omega))
      have hdisjoint := hpartition.disjoint_of_ne
        (List.mem_append_right _ (mem_freeRegions hi))
        (List.mem_append_right _ (mem_freeRegions hj)) hne
      have hsi := blockSize_pos i
      have hsj := blockSize_pos j
      exact hdisjoint.start_ne (by simp only; omega) (by simp only; omega) rfl
    · intro i a ha
      exact hpartition.inside _ (List.mem_append_right _ (mem_freeRegions ha))
    · intro i a ha r hr
      exact (happart.2.2 r hr _ (mem_freeRegions ha)).symm
  · intro p hp r hr
    obtain rfl : pool = p := Option.some.inj (hlayout.start.symm.trans hp)
    exact hpartition.head_disjoint r (List.mem_append_left _ hr)
  · exact happart.1

/-- A cycle is on no list. -/
theorem not_exclusive_of_cyclic {j : Fin kSlotNum} (h : s.alloc.Cyclic j) : ¬ Exclusive s := by
  rintro ⟨⟨free, hslots⟩, -, -⟩
  rcases h with ⟨a, b, ha, hab, hba⟩
  have hlinked := hslots.linked j
  rw [ha] at hlinked
  exact Linked.not_of_cycle hab hba hlinked

theorem perm_cons_eraseIdx {bs : List Block} {i : ℕ} {b : Block} (h : bs[i]? = some b) :
    bs.Perm (b :: bs.eraseIdx i) := by
  rcases List.getElem?_eq_some_iff.1 h with ⟨hi, rfl⟩
  exact (List.getElem_cons_eraseIdx_perm hi).symm

/-- One call: where nothing is recycled it returns and keeps the partition, and
where nothing was missing nothing is missing behind it. -/
theorem layout_step {pool : Addr} {free : Fin kSlotNum → List Addr} {op : Op}
    (h : Layout s.alloc s.regions pool free) (hsizes : ∀ b ∈ s.live, 1 ≤ b.n ∧ b.n ≤ 4096)
    (hproper : op.Proper) (hkeep : ¬ s.Recycles op) :
    ∃ t pool' free', s.step op = .ok t ∧ Layout t.alloc t.regions pool' free' ∧
      (∀ b ∈ t.live, 1 ≤ b.n ∧ b.n ≤ 4096) ∧
      (Covers s.alloc s.regions free → Covers t.alloc t.regions free') := by
  cases op with
  | allocate n =>
      rcases h.allocate hproper.1 hproper.2 hkeep with ⟨alloc, a, pool', free', hrun, h', hcovers⟩
      refine ⟨⟨alloc, ⟨a, n⟩ :: s.live⟩, pool', free', ?_, h', ?_, hcovers⟩
      · rw [Client.step, hrun, ok_bind]
        rfl
      · intro b hb
        rcases List.mem_cons.1 hb with rfl | hb
        · exact hproper
        · exact hsizes b hb
  | deallocate i =>
      cases hlive : s.live[i]? with
      | none => exact ⟨s, pool, free, by simp only [Client.step, hlive, pure_eq_ok], h, hsizes, id⟩
      | some b =>
          -- the block is taken to the front, where `Deallocate` expects it
          have hb := hsizes b (List.mem_of_getElem? hlive)
          have hperm := (perm_cons_eraseIdx hlive).map Block.region
          rcases (h.perm hperm).deallocate hb.1 hb.2 with ⟨alloc, free', hrun, h', hcovers⟩
          refine ⟨⟨alloc, s.live.eraseIdx i⟩, pool, free', ?_, h', ?_, ?_⟩
          · simp only [Client.step, hlive, hrun, ok_bind, pure_eq_ok]
          · intro c hc
            exact hsizes c (List.mem_of_mem_eraseIdx hc)
          · intro h₀
            exact hcovers (h₀.perm hperm)
  | store i words =>
      cases hlive : s.live[i]? with
      | none => exact ⟨s, pool, free, by simp only [Client.step, hlive, pure_eq_ok], h, hsizes, id⟩
      | some b =>
          have hperm := (perm_cons_eraseIdx hlive).map Block.region
          -- no link is in a block that is in use
          have hstore := (h.perm hperm).store (b.store words s.alloc.heap.next)
            fun a ha => if_neg ha
          refine ⟨{ s with alloc.heap.next := b.store words s.alloc.heap.next }, pool, free, ?_,
            hstore.perm hperm.symm, hsizes, id⟩
          simp only [Client.step, hlive, pure_eq_ok]

theorem Inv.step (h : Inv s) {op : Op} (hproper : op.Proper) (hkeep : ¬ s.Recycles op) :
    ∃ t, s.step op = .ok t ∧ Inv t := by
  rcases h.layout with ⟨pool, free, hlayout⟩
  rcases layout_step hlayout h.sizes hproper hkeep with ⟨t, pool', free', hrun, h', hsizes, -⟩
  exact ⟨t, hrun, ⟨pool', free', h'⟩, hsizes⟩

/-- A call that recycles, if it returns at all, leaves a cycle. -/
theorem Inv.step_cyclic (h : Inv s) {op : Op} (hproper : op.Proper) (hrun : s.step op = .ok t)
    (hrecycles : s.Recycles op) : ∃ j, t.alloc.Cyclic j := by
  rcases h.layout with ⟨pool, free, hlayout⟩
  cases op with
  | allocate n =>
      rcases bind_eq_ok.1 hrun with ⟨⟨alloc, p⟩, hcall, hrun⟩
      cases hrun
      exact hlayout.allocate_recycles hproper.1 hproper.2 hrecycles hcall
  | deallocate i => cases hrecycles
  | store i words => cases hrecycles

end Client

open Client

/-- For every sequence of calls for blocks of 1 to 4096 bytes: all of them return
and no state that is reached gives memory two owners, exactly if no call of
`Allocate` recycles what is left of a pool. -/
theorem exclusive_iff (words : Addr → Option Addr) (ops : List Client.Op)
    (hops : ∀ op ∈ ops, op.Proper) :
    ((∃ s, run step (start words) ops = .ok s) ∧
        Always step (fun _ s => Exclusive s) (start words) ops) ↔
      ∀ pre op s, pre ++ [op] <+: ops → run step (start words) pre = .ok s → ¬ s.Recycles op := by
  have hproper : ∀ pre (op : Client.Op), pre ++ [op] <+: ops → op.Proper :=
    fun pre op hpre => hops op (hpre.subset (List.mem_append_right pre List.mem_cons_self))
  apply ok_always_iff fun _ s => Client.Inv s
  · exact start_inv words
  · intro _ s hinv
    exact hinv.exclusive
  · intro pre s op hpre hinv hkeep
    exact hinv.step (hproper pre op hpre) hkeep
  · intro pre s op t hpre hinv hrun hexclusive hrecycles
    rcases hinv.step_cyclic (hproper pre op hpre) hrun hrecycles with ⟨j, hcyclic⟩
    exact not_exclusive_of_cyclic hcyclic hexclusive

theorem exclusive_iff_three :
    ((∃ s, run step (start fun _ => none) [.allocate 16, .store 0 fun _ => none, .deallocate 0] =
          .ok s) ∧
        Always step (fun _ s => Exclusive s) (start fun _ => none)
          [.allocate 16, .store 0 fun _ => none, .deallocate 0]) ↔
      ∀ pre op s, pre ++ [op] <+: [.allocate 16, .store 0 fun _ => none, .deallocate 0] →
        run step (start fun _ => none) pre = .ok s → ¬ s.Recycles op :=
  exclusive_iff (fun _ => none) [.allocate 16, .store 0 fun _ => none, .deallocate 0] (by
    intro op hop
    simp only [List.mem_cons, List.not_mem_nil, or_false] at hop
    rcases hop with rfl | rfl | rfl
    · exact ⟨by norm_num, by norm_num⟩
    · trivial
    · trivial)

/-! ## A leftover in the wrong place -/

namespace Client

/-- Blocks of 117 sizes. Each of the first 116 calls fills a slot, the last of
them with two blocks, which leaves 1880 bytes of the pool. -/
def manySizes : List Op := .allocate 1880 :: (List.range 116).map fun i => .allocate (4088 - 8 * i)

/-- The slot of blocks of 1880 bytes. -/
def leftoverSlot : Fin kSlotNum := ⟨234, by decide⟩

/-- It leads into a cycle. -/
def slotCyclic (s : Client) : Bool :=
  match s.alloc.memorySlot leftoverSlot with
  | none => false
  | some a =>
    match s.alloc.heap.next a with
    | none => false
    | some b => s.alloc.heap.next b = some a

theorem cyclic_of_slotCyclic {s : Client} (h : s.slotCyclic = true) : s.alloc.Cyclic leftoverSlot := by
  unfold slotCyclic at h
  split at h
  · cases h
  · rename_i a ha
    split at h
    · cases h
    · rename_i b hb
      exact ⟨a, b, ha, hb, of_decide_eq_true h⟩

end Client

/-- The leftover of 1880 bytes comes behind the first block of its slot, and
points back at it. -/
theorem leftover_makes_cycle :
    ∃ s, run step (start fun _ => none) manySizes = .ok s ∧ ¬ Exclusive s := by
  have hrun : (run step (start fun _ => none) manySizes >>= fun s => pure s.slotCyclic) =
      .ok true := by decide +kernel
  rcases bind_eq_ok.1 hrun with ⟨s, hs, hcyclic⟩
  exact ⟨s, hs, not_exclusive_of_cyclic (cyclic_of_slotCyclic (Except.ok.inj hcyclic))⟩

end Smallkv
