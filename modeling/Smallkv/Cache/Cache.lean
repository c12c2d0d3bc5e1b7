import Smallkv.Cache.Lru

/-!
# Cache.Cache — the sharded cache

A key lives in the shard its hash selects, and every shard has the full
capacity. Over the shards the cache is a map that may forget: `Represents` and
the three specifications are what the database proofs use of it.
-/

namespace Smallkv

open Fallible Assoc

/-- `SHARDING_NUM`. -/
abbrev kShardingNum : ℕ := 5

structure Cache (K V : Type) where
  caches : Fin kShardingNum → LRU K V

namespace Cache

variable {K V : Type}

def new (cap : ℕ) : Cache K V := ⟨fun _ => LRU.new cap⟩

/-- `hash_fn(key) % SHARDING_NUM`. -/
def shardingIndex (hash : K → ℕ) (key : K) : Fin kShardingNum := Fin.ofNat kShardingNum (hash key)

variable [DecidableEq K]

/-- Run an operation on the shard of a key. -/
def setShard (c : Cache K V) (i : Fin kShardingNum) (l : LRU K V) : Cache K V :=
  ⟨Function.update c.caches i l⟩

def insert (hash : K → ℕ) (c : Cache K V) (key : K) (val : V) : Exec (Cache K V) := do
  let i := shardingIndex hash key
  let l ← (c.caches i).insert key val
  pure (c.setShard i l)

def erase (hash : K → ℕ) (c : Cache K V) (key : K) : Exec (Cache K V) := do
  let i := shardingIndex hash key
  let l ← (c.caches i).erase key
  pure (c.setShard i l)

def get (hash : K → ℕ) (c : Cache K V) (key : K) : Exec (Cache K V × Option Ptr) := do
  let i := shardingIndex hash key
  let (l, node) ← (c.caches i).get key
  pure (c.setShard i l, node)

def contains (hash : K → ℕ) (c : Cache K V) (key : K) : Bool :=
  (c.caches (shardingIndex hash key)).contains key

/-- `*node->val`, for a node that `get` handed out for the key. -/
def valueAt (hash : K → ℕ) (c : Cache K V) (key : K) (node : Ptr) : Exec V :=
  (c.caches (shardingIndex hash key)).valueAt node

/-! ## The cache as a map -/

/-- The value of a key among the residents of its shard. -/
def lookup (hash : K → ℕ) (rs : Fin kShardingNum → List (LRU.Resident K V)) (k : K) : Option V :=
  LRU.lookup (rs (shardingIndex hash k)) k

theorem lookup_update_of_eq {hash : K → ℕ} {i : Fin kShardingNum} {k : K}
    (hi : shardingIndex hash k = i) (rs : Fin kShardingNum → List (LRU.Resident K V))
    (r : List (LRU.Resident K V)) : lookup hash (Function.update rs i r) k = LRU.lookup r k := by
  rw [lookup, hi, Function.update_self]

theorem lookup_update_of_ne {hash : K → ℕ} {i : Fin kShardingNum} {k : K}
    (hi : shardingIndex hash k ≠ i) (rs : Fin kShardingNum → List (LRU.Resident K V))
    (r : List (LRU.Resident K V)) : lookup hash (Function.update rs i r) k = lookup hash rs k := by
  rw [lookup, Function.update_of_ne hi, lookup]

/-- Shards of capacity `cap` whose residents make up the map `m`. -/
def Represents (hash : K → ℕ) (cap : ℕ) (c : Cache K V) (m : K → Option V) : Prop :=
  ∃ rs : Fin kShardingNum → List (LRU.Resident K V),
    (∀ i, LRU.Wf (c.caches i) (rs i) ∧ (c.caches i).cap = cap) ∧
      m = lookup hash rs

variable {hash : K → ℕ} {cap : ℕ} {c : Cache K V} {m : K → Option V}

theorem new_represents (hash : K → ℕ) (cap : ℕ) :
    Represents hash cap (new cap : Cache K V) fun _ => none :=
  ⟨fun _ => [], fun _ => ⟨LRU.new_wf cap, rfl⟩, rfl⟩

theorem Represents.contains (h : Represents hash cap c m) (key : K) :
    c.contains hash key = (m key).isSome := by
  rcases h with ⟨rs, hrs, rfl⟩
  exact (hrs _).1.linked.contains_eq key

/-- Shards without capacity keep nothing. -/
theorem Represents.eq_none (h : Represents hash 0 c m) (key : K) : m key = none := by
  rcases h with ⟨rs, hrs, rfl⟩
  rcases hrs (shardingIndex hash key) with ⟨hwf, hcap⟩
  have hempty : rs (shardingIndex hash key) = [] := by
    rw [← List.length_eq_zero_iff, ← Nat.le_zero, ← hcap]
    exact hwf.length_le
  rw [lookup, hempty]
  rfl

/-- Replacing the shard of a key changes the map on that shard only. -/
theorem setShard_represents {rs : Fin kShardingNum → List (LRU.Resident K V)}
    (hrs : ∀ i, LRU.Wf (c.caches i) (rs i) ∧ (c.caches i).cap = cap) {i : Fin kShardingNum}
    {l : LRU K V} {r : List (LRU.Resident K V)} (hl : LRU.Wf l r) (hcap : l.cap = cap) :
    Represents hash cap (c.setShard i l) (lookup hash (Function.update rs i r)) := by
  refine ⟨Function.update rs i r, ?_, rfl⟩
  intro j
  by_cases hj : j = i
  · subst hj
    simpa [setShard] using ⟨hl, hcap⟩
  · simpa [setShard, hj] using hrs j

/-- `insert` puts the pair in unless the key is there, and may lose keys. -/
theorem Represents.insert (h : Represents hash cap c m) (key : K) (val : V) :
    ∃ c' m', c.insert hash key val = .ok c' ∧ Represents hash cap c' m' ∧
      Submap m' (insertMap m key val) ∧ (m key = none → 0 < cap → m' key = some val) ∧
      (m key ≠ none → m' = m) := by
  rcases h with ⟨rs, hrs, rfl⟩
  rcases LRU.insert_spec (hrs (shardingIndex hash key)).1 key val with
    ⟨l, r, hrun, hwf, hcap, hsub, hnew, hold⟩
  rw [(hrs _).2] at hcap hnew
  refine ⟨c.setShard (shardingIndex hash key) l, _, by simp [Cache.insert, hrun],
    setShard_represents hrs hwf hcap, ?_, ?_, ?_⟩
  · intro k v hk
    by_cases hi : shardingIndex hash k = shardingIndex hash key
    · -- in the shard of the key the operation on the shard decides
      rw [lookup_update_of_eq hi] at hk
      have hval := hsub k v hk
      rw [insertMap, Function.update_apply] at hval ⊢
      rwa [lookup, lookup, hi]
    · -- a key of another shard is another key
      have hne : k ≠ key := fun heq => hi (heq ▸ rfl)
      rw [lookup_update_of_ne hi] at hk
      rwa [insertMap, Function.update_of_ne hne]
  · intro hnone hpos
    rw [lookup_update_of_eq rfl]
    exact hnew hnone hpos
  · intro hsome
    funext k
    by_cases hi : shardingIndex hash k = shardingIndex hash key
    · rw [lookup_update_of_eq hi, hold hsome, lookup, hi]
    · rw [lookup_update_of_ne hi]

/-- `erase` removes the key. -/
theorem Represents.erase (h : Represents hash cap c m) (key : K) :
    ∃ c', c.erase hash key = .ok c' ∧
      Represents hash cap c' (Function.update m key none) := by
  rcases h with ⟨rs, hrs, rfl⟩
  rcases LRU.erase_spec (hrs (shardingIndex hash key)).1 key with ⟨l, r, hrun, hwf, hcap, hmap⟩
  rw [(hrs _).2] at hcap
  refine ⟨c.setShard (shardingIndex hash key) l, by simp [Cache.erase, hrun], ?_⟩
  have heq : lookup hash (Function.update rs (shardingIndex hash key) r) =
      Function.update (lookup hash rs) key none := by
    funext k
    by_cases hi : shardingIndex hash k = shardingIndex hash key
    · rw [lookup_update_of_eq hi, hmap, Function.update_apply, Function.update_apply, lookup, hi]
    · have hne : k ≠ key := fun heq => hi (heq ▸ rfl)
      rw [lookup_update_of_ne hi, Function.update_of_ne hne]
  exact heq ▸ setShard_represents hrs hwf hcap

/-- `get` of a key that is there hands out its value and keeps the map. -/
theorem Represents.get (h : Represents hash cap c m) {key : K} {val : V}
    (hkey : m key = some val) :
    ∃ c' node, c.get hash key = .ok (c', some node) ∧ c'.valueAt hash key node = .ok val ∧
      Represents hash cap c' m := by
  rcases h with ⟨rs, hrs, rfl⟩
  rcases LRU.get_spec (hrs (shardingIndex hash key)).1 hkey with
    ⟨l, r, p, hrun, hval, hwf, hcap, hmap⟩
  rw [(hrs _).2] at hcap
  refine ⟨c.setShard (shardingIndex hash key) l, p, by simp [Cache.get, hrun], ?_, ?_⟩
  · simpa [Cache.valueAt, setShard] using hval
  · have heq : lookup hash (Function.update rs (shardingIndex hash key) r) = lookup hash rs := by
      funext k
      by_cases hi : shardingIndex hash k = shardingIndex hash key
      · rw [lookup_update_of_eq hi, hmap, lookup, hi]
      · rw [lookup_update_of_ne hi]
    exact heq ▸ setShard_represents hrs hwf hcap

end Cache

end Smallkv
