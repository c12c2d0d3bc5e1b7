import Smallkv.Cache.Cache
import Smallkv.Cache.Residency

/-!
# Cache.Shards — what a call makes of the shards

A call on the cache is a call on the shard of its key. Every shard stays on a
shelf, so what is known of a single one is known of the cache; `Evicts` says
which key an insertion gives up.
-/

namespace Smallkv

open Fallible Assoc

namespace Cache

variable {K V : Type} [DecidableEq K] {hash : K → ℕ} {c c' : Cache K V} {key : K}

/-- Every shard is on a shelf. -/
def Stocked (c : Cache K V) : Prop := ∀ i, ∃ s, LRU.Shelved (c.caches i) s

theorem new_stocked (cap : ℕ) : Stocked (new cap : Cache K V) :=
  fun _ => ⟨_, LRU.new_shelved cap⟩

theorem insert_ok {val : V} (hrun : c.insert hash key val = .ok c') :
    ∃ l, (c.caches (shardingIndex hash key)).insert key val = .ok l ∧
      c' = c.setShard (shardingIndex hash key) l := by
  rcases bind_eq_ok.1 hrun with ⟨l, hl, hrun⟩
  cases hrun
  exact ⟨l, hl, rfl⟩

theorem erase_ok (hrun : c.erase hash key = .ok c') :
    ∃ l, (c.caches (shardingIndex hash key)).erase key = .ok l ∧
      c' = c.setShard (shardingIndex hash key) l := by
  rcases bind_eq_ok.1 hrun with ⟨l, hl, hrun⟩
  cases hrun
  exact ⟨l, hl, rfl⟩

theorem get_ok {node : Option Ptr} (hrun : c.get hash key = .ok (c', node)) :
    ∃ l, (c.caches (shardingIndex hash key)).get key = .ok (l, node) ∧
      c' = c.setShard (shardingIndex hash key) l := by
  rcases bind_eq_ok.1 hrun with ⟨⟨l, n⟩, hl, hrun⟩
  cases hrun
  exact ⟨l, hl, rfl⟩

omit [DecidableEq K] in
/-- What holds of every shard holds after one shard was replaced, if it holds of
the new one. -/
theorem forall_setShard {P : LRU K V → Prop} (h : ∀ i, P (c.caches i)) (i : Fin kShardingNum)
    {l : LRU K V} : (∀ j, P ((c.setShard i l).caches j)) ↔ P l := by
  constructor
  · intro hall
    simpa [setShard] using hall i
  · intro hl j
    by_cases hj : j = i
    · subst hj
      simpa [setShard] using hl
    · simpa [setShard, hj] using h j

theorem Stocked.insert (h : Stocked c) {val : V} (hrun : c.insert hash key val = .ok c') :
    Stocked c' := by
  rcases insert_ok hrun with ⟨l, hl, rfl⟩
  rcases h (shardingIndex hash key) with ⟨s, hs⟩
  exact (forall_setShard (P := fun l => ∃ s, LRU.Shelved l s) h _).2 ⟨_, hs.of_insert hl⟩

theorem Stocked.erase (h : Stocked c) (hrun : c.erase hash key = .ok c') : Stocked c' := by
  rcases erase_ok hrun with ⟨l, hl, rfl⟩
  rcases h (shardingIndex hash key) with ⟨s, hs⟩
  exact (forall_setShard (P := fun l => ∃ s, LRU.Shelved l s) h _).2 ⟨_, hs.of_erase hl⟩

theorem Stocked.get (h : Stocked c) {node : Option Ptr}
    (hrun : c.get hash key = .ok (c', node)) : Stocked c' := by
  rcases get_ok hrun with ⟨l, hl, rfl⟩
  rcases h (shardingIndex hash key) with ⟨s, hs⟩
  exact (forall_setShard (P := fun l => ∃ s, LRU.Shelved l s) h _).2 ⟨_, (hs.of_get hl).1⟩

omit [DecidableEq K] in
theorem contains_eq_false_iff :
    c.contains hash key = false ↔ (c.caches (shardingIndex hash key)).index key = none := by
  simp [Cache.contains, LRU.contains]

/-! ## Which keys are there -/

/-- An insertion of `key` is one of a new key, and gives up `k`. -/
def Evicts (hash : K → ℕ) (c : Cache K V) (key k : K) : Prop :=
  shardingIndex hash k = shardingIndex hash key ∧
    (c.caches (shardingIndex hash key)).index key = none ∧
    (c.caches (shardingIndex hash key)).victim key = some k

omit [DecidableEq K] in
/-- In the shard of the key the new shard answers, in all others the old one. -/
theorem contains_setShard (c : Cache K V) (i : Fin kShardingNum) (l : LRU K V) (k : K) :
    (c.setShard i l).contains hash k =
      if shardingIndex hash k = i then l.contains k else c.contains hash k := by
  by_cases hi : shardingIndex hash k = i
  · simp [Cache.contains, setShard, hi]
  · simp [Cache.contains, setShard, hi]

theorem insert_contains_iff (h : Stocked c) {val : V} (hrun : c.insert hash key val = .ok c')
    {k : K} (hk : c.contains hash k = true) :
    c'.contains hash k = true ↔ ¬ Evicts hash c key k := by
  rcases insert_ok hrun with ⟨l, hl, rfl⟩
  rcases h (shardingIndex hash key) with ⟨s, hs⟩
  rw [contains_setShard, Evicts]
  by_cases hi : shardingIndex hash k = shardingIndex hash key
  · rw [Cache.contains, hi] at hk
    rw [if_pos hi, LRU.insert_contains_iff hs hl hk]
    simp [hi]
  · rw [if_neg hi]
    simp [hi, hk]

theorem get_contains (h : Stocked c) {node : Option Ptr}
    (hrun : c.get hash key = .ok (c', node)) {k : K} (hk : c.contains hash k = true) :
    c'.contains hash k = true := by
  rcases get_ok hrun with ⟨l, hl, rfl⟩
  rcases h (shardingIndex hash key) with ⟨s, hs⟩
  rw [contains_setShard]
  by_cases hi : shardingIndex hash k = shardingIndex hash key
  · rw [Cache.contains, hi] at hk
    rw [if_pos hi]
    exact LRU.get_contains hs hl hk
  · rwa [if_neg hi]

theorem get_isSome (h : Stocked c) {node : Option Ptr}
    (hrun : c.get hash key = .ok (c', node)) : node.isSome = c.contains hash key := by
  rcases get_ok hrun with ⟨l, hl, rfl⟩
  rcases h (shardingIndex hash key) with ⟨s, hs⟩
  exact LRU.get_isSome hs hl

/-- `get` returns. -/
theorem Stocked.get_returns (h : Stocked c) (hash : K → ℕ) (key : K) :
    ∃ c' node, c.get hash key = .ok (c', node) := by
  rcases h (shardingIndex hash key) with ⟨s, hs⟩
  rcases LRU.get_shelved hs key with ⟨l, hl, -, -⟩
  exact ⟨_, _, by simp only [Cache.get, hl, ok_bind, pure_eq_ok]; rfl⟩

end Cache

end Smallkv
