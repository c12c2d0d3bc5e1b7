import Smallkv.Memory.Exclusive

/-!
# Memory.Conservation — no memory gets lost

Every byte of the chunks that were obtained belongs to a block in use, to a block
on a free list or to the pool. `Conserves` says so by counting: these regions do
not overlap and add up to all chunks. A leftover that is recycled is the one thing
that breaks it: its slot has no list to put it on, or the list gets a cycle and is
no list any more.
-/

namespace Smallkv

open Fallible Regions FreeListAllocate

namespace Client

/-- The slots hold the lists `free`, and the blocks on them, the blocks in use and
the pool are all there is of the chunks. -/
structure Conserved (s : Client) (free : Fin kSlotNum → List Addr) : Prop where
  linked : ∀ i, Linked s.alloc.heap.next (s.alloc.memorySlot i) (free i)
  apart : ∃ pool, s.alloc.memPoolStart = some pool ∧
    Partition s.alloc.heap.chunks (⟨pool, s.alloc.memPoolSize⟩ :: s.regions ++ freeRegions free)
  covers : total (freeRegions free) + total s.regions + s.alloc.memPoolSize =
    4 * 1024 * 1024 * s.alloc.heap.chunks.length

def Conserves (s : Client) : Prop := ∃ free, Conserved s free

/-- A cycle is on no list. -/
theorem not_conserves_of_cyclic {s : Client} {j : Fin kSlotNum} (h : s.alloc.Cyclic j) :
    ¬ Conserves s := by
  rintro ⟨free, hconserved⟩
  rcases h with ⟨a, b, ha, hab, hba⟩
  have hlinked := hconserved.linked j
  rw [ha] at hlinked
  exact Linked.not_of_cycle hab hba hlinked

/-- The partition, with nothing missing. -/
structure Accounted (s : Client) : Prop where
  layout : ∃ pool free, Layout s.alloc s.regions pool free ∧ Covers s.alloc s.regions free
  sizes : ∀ b ∈ s.live, 1 ≤ b.n ∧ b.n ≤ 4096

theorem Accounted.inv {s : Client} (h : Accounted s) : Inv s where
  layout := by
    rcases h.layout with ⟨pool, free, hlayout, -⟩
    exact ⟨pool, free, hlayout⟩
  sizes := h.sizes

theorem Accounted.conserves {s : Client} (h : Accounted s) : Conserves s := by
  rcases h.layout with ⟨pool, free, hlayout, hcovers⟩
  refine ⟨free, hlayout.lists.linked, ⟨pool, hlayout.start, hlayout.lists.partition⟩, ?_⟩
  unfold Covers kChunkSize at hcovers
  omega

theorem start_accounted (words : Addr → Option Addr) : Accounted (start words) where
  layout := by
    rcases (start_inv words).layout with ⟨pool, free, hlayout⟩
    refine ⟨pool, free, hlayout, ?_⟩
    -- the lists are empty, as the slots are
    have hfree : ∀ i, free i = [] := fun i => (hlayout.lists.linked i).unique rfl
    have hnone : freeRegions free = [] := by
      apply List.flatMap_eq_nil_iff.2
      intro i _
      rw [hfree, List.map_nil]
    rw [Covers, hnone]
    rfl
  sizes := by
    intro b hb
    cases hb

theorem Accounted.step {s : Client} (h : Accounted s) {op : Op} (hproper : op.Proper)
    (hkeep : ¬ s.Recycles op) : ∃ t, s.step op = .ok t ∧ Accounted t := by
  rcases h.layout with ⟨pool, free, hlayout, hcovers⟩
  rcases layout_step hlayout h.sizes hproper hkeep with
    ⟨t, pool', free', hrun, hlayout', hsizes, hcovers'⟩
  exact ⟨t, hrun, ⟨pool', free', hlayout', hcovers' hcovers⟩, hsizes⟩

end Client

open Client

/-- For every sequence of calls for blocks of 1 to 4096 bytes: all of them return
and no state that is reached has lost memory, exactly if no call of `Allocate`
recycles what is left of a pool. -/
theorem conserves_iff (words : Addr → Option Addr) (ops : List Client.Op)
    (hops : ∀ op ∈ ops, op.Proper) :
    ((∃ s, run step (start words) ops = .ok s) ∧
        Always step (fun _ s => Conserves s) (start words) ops) ↔
      ∀ pre op s, pre ++ [op] <+: ops → run step (start words) pre = .ok s → ¬ s.Recycles op := by
  have hproper : ∀ pre (op : Client.Op), pre ++ [op] <+: ops → op.Proper :=
    fun pre op hpre => hops op (hpre.subset (List.mem_append_right pre List.mem_cons_self))
  apply ok_always_iff fun _ s => Client.Accounted s
  · exact start_accounted words
  · intro _ s h
    exact h.conserves
  · intro pre s op hpre h hkeep
    exact h.step (hproper pre op hpre) hkeep
  · -- a call that recycles and returns leaves a cycle
    intro pre s op t hpre h hrun hconserves hrecycles
    rcases h.inv.step_cyclic (hproper pre op hpre) hrun hrecycles with ⟨j, hcyclic⟩
    exact not_conserves_of_cyclic hcyclic hconserves

theorem conserves_iff_three :
    ((∃ s, run step (start fun _ => none) [.allocate 16, .allocate 4096, .deallocate 1] = .ok s) ∧
        Always step (fun _ s => Conserves s) (start fun _ => none)
          [.allocate 16, .allocate 4096, .deallocate 1]) ↔
      ∀ pre op s, pre ++ [op] <+: [.allocate 16, .allocate 4096, .deallocate 1] →
        run step (start fun _ => none) pre = .ok s → ¬ s.Recycles op :=
  conserves_iff (fun _ => none) [.allocate 16, .allocate 4096, .deallocate 1] (by
    intro op hop
    simp only [List.mem_cons, List.not_mem_nil, or_false] at hop
    rcases hop with rfl | rfl | rfl
    · exact ⟨by norm_num, by norm_num⟩
    · exact ⟨by norm_num, by norm_num⟩
    · trivial)

namespace Client

/-- Blocks of 117 sizes. The first 116 calls leave 1952 bytes of the pool, and no
block of that size was ever asked for. -/
def descendingSizes : List Op := (List.range 117).map fun i => .allocate (4096 - 8 * i)

end Client

/-- The leftover is to go behind the head of a list that has none. -/
theorem leftover_without_list :
    ¬ ((∃ s, run step (start fun _ => none) descendingSizes = .ok s) ∧
      Always step (fun _ s => Conserves s) (start fun _ => none) descendingSizes) := by
  rintro ⟨⟨s, hs⟩, -⟩
  have hrun : (run step (start fun _ => none) descendingSizes >>= fun _ => pure true) =
      .error .badAccess := by decide +kernel
  rw [hs] at hrun
  cases hrun

end Smallkv
