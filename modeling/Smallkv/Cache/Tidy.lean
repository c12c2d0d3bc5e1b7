import Smallkv.Cache.Shards

/-!
# Cache.Tidy — a cache that no one holds anything of

A shard is tidy when its residents are referenced by the shard alone and nothing
else is alive. Then whatever leaves it is destroyed, and only two things make it
untidy: handing out a node, and making a node for a key that is there.
-/

namespace Smallkv

open Fallible Assoc

namespace LRU

variable {K V : Type}

/-- Residents are referenced once, the garbage station is empty, and only
residents are alive. -/
structure Tidy (l : LRU K V) : Prop where
  count_one : ∀ p ∈ l.nodes, ∀ node, l.heap.load p = some node → node.refCnt = 1
  station_empty : ∀ key, l.garbageStation key = none
  alive_resident : ∀ p node, l.heap.load p = some node → p ∈ l.nodes

structure Shelf.Tidy (s : Shelf K V) : Prop where
  count_one : ∀ r ∈ s.residents, r.node.refCnt = 1
  garbage_nil : s.garbage = []
  lost_nil : s.lost = []

variable [DecidableEq K] {l : LRU K V} {s : Shelf K V} {r : Resident K V} {key : K}

/-- In a tidy shard whatever is alive is a resident. -/
theorem Tidy.resident_of_alive (ht : l.Tidy) (h : Shelved l s) (hr : r ∈ s.alive) :
    r ∈ s.residents := by
  have hmem := ht.alive_resident r.ptr r.node (h.load hr)
  rw [h.linked.nodes_eq, List.mem_map] at hmem
  rcases hmem with ⟨q, hq, hptr⟩
  have hload := h.linked.loads q hq
  rw [hptr, h.load hr] at hload
  cases q
  cases r
  simp only at hptr
  cases hptr
  cases hload
  exact hq

/-- So there is nothing else on the shelf. -/
theorem Tidy.rest_nil (ht : l.Tidy) (h : Shelved l s) : s.garbage ++ s.lost = [] := by
  have hnodup := h.inventory.nodup
  rw [List.map_map, Shelf.alive, List.map_append, List.nodup_append] at hnodup
  rw [List.eq_nil_iff_forall_not_mem]
  intro q hq
  have hres := ht.resident_of_alive h (List.mem_append_right _ hq)
  exact hnodup.2.2 _ (List.mem_map_of_mem hres) _ (List.mem_map_of_mem hq) rfl

theorem tidy_iff (h : Shelved l s) : l.Tidy ↔ s.Tidy := by
  constructor
  · intro ht
    refine ⟨?_, ?_, ?_⟩
    · intro r hr
      refine ht.count_one r.ptr ?_ r.node (h.linked.loads r hr)
      rw [h.linked.nodes_eq]
      exact List.mem_map_of_mem hr
    · exact (List.append_eq_nil_iff.1 (ht.rest_nil h)).1
    · exact (List.append_eq_nil_iff.1 (ht.rest_nil h)).2
  · intro ht
    have halive : s.alive = s.residents := by
      rw [Shelf.alive, ht.garbage_nil, ht.lost_nil, List.append_nil, List.append_nil]
    refine ⟨?_, ?_, ?_⟩
    · intro p _ node hload
      have hq := h.alive_of_load hload
      rw [halive] at hq
      exact ht.count_one _ hq
    · intro key
      rw [h.station_eq, ht.garbage_nil]
      rfl
    · intro p node hload
      have hq := h.alive_of_load hload
      rw [halive] at hq
      rw [h.linked.nodes_eq]
      exact List.mem_map_of_mem hq

/-- What leaves a tidy shelf is destroyed. -/
theorem Shelf.Tidy.displace (h : s.Tidy) (hr : r ∈ s.residents) : (s.displace r).Tidy := by
  have hwaiting : s.waiting r.node.key = [] := by rw [Shelf.waiting, h.garbage_nil, List.filter_nil]
  have hforgotten : s.forgotten r.node.key = [] := by
    rw [Shelf.forgotten, h.garbage_nil, List.filter_nil]
  have hcount : r.retired.node.refCnt ≤ 0 := by
    rw [show r.retired.node.refCnt = asInt32 (r.node.refCnt - 1) from rfl, h.count_one r hr]
    decide
  rw [Shelf.displace, if_pos hcount]
  exact
    { count_one := fun q hq => h.count_one q (List.mem_of_mem_filter hq)
      garbage_nil := hwaiting
      lost_nil := by rw [hforgotten, h.lost_nil, List.nil_append] }

omit [DecidableEq K] in
theorem Shelf.Tidy.push (h : s.Tidy) (p : Ptr) (key : K) (val : V) :
    (s.push (.made p key val)).Tidy where
  count_one := by
    intro q hq
    rcases List.mem_cons.1 hq with rfl | hq
    · rfl
    · exact h.count_one q hq
  garbage_nil := h.garbage_nil
  lost_nil := h.lost_nil

/-- Inserting keeps a shard tidy exactly if the key is not there. -/
theorem insert_tidy_iff (h : Shelved l s) (ht : l.Tidy) {val : V} {l' : LRU K V}
    (hrun : l.insert key val = .ok l') : l'.Tidy ↔ l.index key = none := by
  rw [tidy_iff h] at ht
  rw [tidy_iff (h.of_insert hrun), h.index_eq]
  cases hfind : s.find key with
  | none =>
      have hpush := ht.push l.heap.fresh key val
      refine iff_of_true ?_ rfl
      by_cases hfull : s.residents.length + 1 > l.cap
      · rw [Shelf.insert_full hfind hfull]
        exact hpush.displace (List.getLast_mem _)
      · rw [Shelf.insert_room hfind hfull]
        exact hpush
  | some r =>
      rw [Shelf.insert_found hfind]
      exact iff_of_false (fun ht' => List.cons_ne_nil _ _ ht'.lost_nil) (by simp)

theorem erase_tidy (h : Shelved l s) (ht : l.Tidy) {l' : LRU K V}
    (hrun : l.erase key = .ok l') : l'.Tidy := by
  rw [tidy_iff h] at ht
  rw [tidy_iff (h.of_erase hrun)]
  cases hfind : s.find key with
  | none =>
      rw [Shelf.erase_missing hfind]
      exact ht
  | some r =>
      rw [Shelf.erase_found hfind]
      exact ht.displace (List.mem_of_find?_eq_some hfind)

/-- `get` keeps a shard tidy exactly if it hands out nothing. -/
theorem get_tidy_iff (h : Shelved l s) (ht : l.Tidy) {l' : LRU K V} {node : Option Ptr}
    (hrun : l.get key = .ok (l', node)) : l'.Tidy ↔ l.index key = none := by
  rw [tidy_iff h] at ht
  rw [tidy_iff (h.of_get hrun).1, h.index_eq]
  cases hfind : s.find key with
  | none =>
      rw [Shelf.get_missing hfind]
      exact iff_of_true ht rfl
  | some r =>
      rw [Shelf.get_found hfind]
      refine iff_of_false ?_ (by simp)
      intro ht'
      have htwo : asInt32 (r.node.refCnt + 1) = 1 := ht'.count_one r.referenced List.mem_cons_self
      rw [ht.count_one r (List.mem_of_find?_eq_some hfind)] at htwo
      exact absurd htwo (by decide)

end LRU

/-! ## All shards -/

namespace Cache

variable {K V : Type} [DecidableEq K] {hash : K → ℕ} {c c' : Cache K V} {key : K}

omit [DecidableEq K] in
def Tidy (c : Cache K V) : Prop := ∀ i, (c.caches i).Tidy

theorem new_tidy (cap : ℕ) : Tidy (new cap : Cache K V) := by
  intro i
  rw [Cache.new, LRU.tidy_iff (LRU.new_shelved cap)]
  constructor
  · intro r hr
    cases hr
  · rfl
  · rfl

theorem insert_tidy_iff (h : Stocked c) (ht : Tidy c) {val : V}
    (hrun : c.insert hash key val = .ok c') : Tidy c' ↔ c.contains hash key = false := by
  rcases insert_ok hrun with ⟨l, hl, rfl⟩
  rcases h (shardingIndex hash key) with ⟨s, hs⟩
  rw [contains_eq_false_iff, ← LRU.insert_tidy_iff hs (ht _) hl]
  exact forall_setShard ht _

theorem erase_tidy (h : Stocked c) (ht : Tidy c) (hrun : c.erase hash key = .ok c') :
    Tidy c' := by
  rcases erase_ok hrun with ⟨l, hl, rfl⟩
  rcases h (shardingIndex hash key) with ⟨s, hs⟩
  exact (forall_setShard ht _).2 (LRU.erase_tidy hs (ht _) hl)

theorem get_tidy_iff (h : Stocked c) (ht : Tidy c) {node : Option Ptr}
    (hrun : c.get hash key = .ok (c', node)) : Tidy c' ↔ c.contains hash key = false := by
  rcases get_ok hrun with ⟨l, hl, rfl⟩
  rcases h (shardingIndex hash key) with ⟨s, hs⟩
  rw [contains_eq_false_iff, ← LRU.get_tidy_iff hs (ht _) hl]
  exact forall_setShard ht _

end Cache

end Smallkv
