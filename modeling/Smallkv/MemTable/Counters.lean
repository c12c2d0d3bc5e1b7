import Smallkv.MemTable.OrderedMap
import Smallkv.Storage.Codec

/-!
# MemTable.Counters — the two counters of a skip list

`presentPairs` replays calls on a plain list of pairs: what is in the list, and
nothing about towers. The counters are kept beside the chain, by other code; a
run leaves them at the number of these pairs and at their bytes
(`run_counted`). `GetSize` hands the 64-bit counter out as an `int`, so it is
the number of keys below `2 ^ 31` of them and no longer from there on
(`countersExact_iff`).
-/

namespace Smallkv

open Fallible Assoc

namespace SkipList

variable {Key Value : Type}

/-- `GetSize` is right about fewer than `2 ^ 31` pairs. -/
theorem getSize_eq_iff {s : SkipList Key Value} {n : ℕ} (h : s.size = n) :
    s.getSize = n ↔ n < 2 ^ 31 := by
  rw [getSize, h, asInt32_eq_iff (Int.natCast_nonneg n)]
  exact_mod_cast Iff.rfl

/-- Key and value lengths, summed over the pairs. -/
def bytesOf [HasSize Key] [HasSize Value] (l : List (Key × Value)) : ℕ :=
  (l.map fun p => HasSize.size p.1 + HasSize.size p.2).sum

/-- The order of the pairs does not matter. -/
theorem bytesOf_perm [HasSize Key] [HasSize Value] {l m : List (Key × Value)} (h : l.Perm m) :
    bytesOf l = bytesOf m :=
  (h.map _).sum_eq

variable [LinearOrder Key]

/-! ## The pairs that are present -/

/-- What a call makes of the pairs that are present. -/
def presentStep (l : List (Key × Value)) : Op Key Value → List (Key × Value)
  | .insert _ key value => insertPair l key value
  | .delete key => l.filter fun p => p.1 ≠ key
  | .contains _ => l
  | .get _ => l

/-- The pairs that are present after the calls. -/
def presentPairs (ops : List (Op Key Value)) : List (Key × Value) := ops.foldl presentStep []

@[simp] theorem presentPairs_nil : presentPairs ([] : List (Op Key Value)) = [] := rfl

theorem presentPairs_concat (ops : List (Op Key Value)) (op : Op Key Value) :
    presentPairs (ops ++ [op]) = presentStep (presentPairs ops) op := by
  simp [presentPairs]

theorem presentStep_nodup {l : List (Key × Value)} (h : (l.map Prod.fst).Nodup)
    (op : Op Key Value) : ((presentStep l op).map Prod.fst).Nodup := by
  cases op with
  | insert flips key value => exact insertPair_nodup h key value
  | delete key => exact h.sublist (List.filter_sublist.map Prod.fst)
  | contains key => exact h
  | get key => exact h

theorem presentPairs_nodup (ops : List (Op Key Value)) :
    ((presentPairs ops).map Prod.fst).Nodup := by
  induction ops using List.reverseRecOn with
  | nil => exact List.nodup_nil
  | append_singleton ops op ih =>
      rw [presentPairs_concat]
      exact presentStep_nodup ih op

/-- One call on the pairs is one call on the map they stand for. -/
theorem toMap_presentStep (l : List (Key × Value)) (log : List (Answer Value))
    (op : Op Key Value) : toMap (presentStep l op) = (refStep (toMap l, log) op).1 := by
  cases op with
  | insert flips key value => exact toMap_insertPair l key value
  | delete key => exact toMap_filter_ne l key
  | contains key => rfl
  | get key => rfl

theorem toMap_presentPairs (ops : List (Op Key Value)) :
    toMap (presentPairs ops) = (refRun ops).1 := by
  induction ops using List.reverseRecOn with
  | nil => rfl
  | append_singleton ops op ih =>
      rw [presentPairs_concat, toMap_presentStep _ (refRun ops).2, ih, refRun, refRun,
        List.foldl_append]
      rfl

/-- Insertions of different keys are all there. -/
theorem presentPairs_inserts {l : List (Key × Value)} (h : (l.map Prod.fst).Nodup) :
    presentPairs (l.map fun p => Op.insert [] p.1 p.2) = l.reverse := by
  induction l using List.reverseRecOn with
  | nil => rfl
  | append_singleton l p ih =>
      rw [List.map_append, List.nodup_append] at h
      have hnew : p.1 ∉ l.reverse.map Prod.fst := by
        rw [List.map_reverse, List.mem_reverse]
        intro hmem
        exact h.2.2 p.1 hmem p.1 (by simp) rfl
      rw [List.map_append, List.map_singleton, presentPairs_concat, ih h.1, presentStep,
        insertPair, if_neg hnew, List.reverse_append]
      rfl

/-- `n` pairs with different keys of four bytes. -/
def fixedPairs (n : ℕ) : List (Bytes × Bytes) :=
  (List.range n).map fun i => (encodeFixed32 i, [])

theorem fixedPairs_nodup {n : ℕ} (hn : n ≤ 2 ^ 32) : ((fixedPairs n).map Prod.fst).Nodup := by
  rw [fixedPairs, List.map_map]
  refine List.Nodup.map_on ?_ List.nodup_range
  intro i hi j hj heq
  have hi' := List.mem_range.1 hi
  have hj' := List.mem_range.1 hj
  have hval := congrArg fixedValue heq
  simp only [Function.comp_apply] at hval
  rwa [fixedValue_encodeFixed32 (by omega), fixedValue_encodeFixed32 (by omega)] at hval

theorem length_presentPairs_fixed {n : ℕ} (hn : n ≤ 2 ^ 32) :
    (presentPairs ((fixedPairs n).map fun p => Op.insert [] p.1 p.2)).length = n := by
  rw [presentPairs_inserts (fixedPairs_nodup hn), List.length_reverse, fixedPairs,
    List.length_map, List.length_range]

/-! ## The counters of a list that holds given pairs -/

variable [HasSize Key] [HasSize Value]

/-- What `GetSize` and `GetMemUsage` are to report after the calls. Both are
counts, so neither is negative. -/
structure CountersExact (ops : List (Op Key Value)) (s : SkipList Key Value) : Prop where
  size : s.getSize = (presentPairs ops).length
  memUsage : s.getMemUsage = bytesOf (presentPairs ops)

variable [Inhabited Key] [Inhabited Value] {s : SkipList Key Value}

/-- A list that stands for the pairs holds them, in key order, and has counted
them. -/
theorem Represents.counted {l : List (Key × Value)} (hnodup : (l.map Prod.fst).Nodup)
    (h : Represents s (toMap l)) :
    (∃ entries, s.entries = .ok entries ∧ entries.Pairwise (fun a b => a.1 < b.1) ∧
      entries.Perm l) ∧ s.size = l.length ∧ s.getMemUsage = bytesOf l := by
  rcases h.entries with ⟨entries, hrun, hsorted, hmap, hsize, husage⟩
  have hperm := perm_of_toMap_eq (nodup_keys_of_sorted hsorted) hnodup hmap
  refine ⟨⟨entries, hrun, hsorted, hperm⟩, by rw [hsize, hperm.length_eq], ?_⟩
  rw [getMemUsage, husage, ← bytesOf_perm hperm, bytesOf, Nat.cast_list_sum, List.map_map]
  simp [Function.comp_def]

theorem run_counted (ops : List (Op Key Value)) :
    ∃ s log, run step (new, []) ops = .ok (s, log) ∧ Represents s (toMap (presentPairs ops)) := by
  rcases run_spec new_represents [] ops with ⟨s, hrun, h⟩
  rw [toMap_presentPairs]
  exact ⟨s, _, hrun, h⟩

theorem countersExact_iff (ops : List (Op Key Value)) :
    (∃ s log, run step (new, []) ops = .ok (s, log) ∧ CountersExact ops s) ↔
      (presentPairs ops).length < 2 ^ 31 := by
  rcases run_counted ops with ⟨s, log, hrun, hrep⟩
  rcases hrep.counted (presentPairs_nodup ops) with ⟨-, hsize, husage⟩
  constructor
  · rintro ⟨s', log', hrun', hexact⟩
    obtain ⟨rfl, -⟩ := Prod.mk.inj (Except.ok.inj (hrun.symm.trans hrun'))
    exact (getSize_eq_iff hsize).1 hexact.size
  · intro hfew
    exact ⟨s, log, hrun, (getSize_eq_iff hsize).2 hfew, husage⟩

end SkipList

end Smallkv
