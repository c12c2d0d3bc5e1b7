import Smallkv.Cache.Shards

/-!
# Cache.Contents — what a node keeps

A node keeps key and value for as long as it is on the heap, whoever is in the
cache meanwhile, and its address is not handed out again. So what is known of a
value when it goes into the cache is known of it whenever a node is read, also
of one that has long been pushed out.
-/

namespace Smallkv

open Fallible

namespace LRU

variable {K V : Type}

/-- Every node has a pair that `Q` allows. -/
def HoldsOnly (Q : K → V → Prop) (l : LRU K V) : Prop :=
  ∀ p node, l.heap.load p = some node → Q node.key node.val

/-- The address was handed out, and the node there, if there still is one, has a
pair that `Q` allows. -/
def Pinned (Q : K → V → Prop) (l : LRU K V) (p : Ptr) : Prop :=
  p < l.heap.fresh ∧ ∀ node, l.heap.load p = some node → Q node.key node.val

/-- Nodes keep their pairs, and new ones have pairs that `Q` allows. -/
structure Evolves (Q : K → V → Prop) (l l' : LRU K V) : Prop where
  fresh_le : l.heap.fresh ≤ l'.heap.fresh
  loads : ∀ p node', l'.heap.load p = some node' →
    (∃ node, l.heap.load p = some node ∧ node.key = node'.key ∧ node.val = node'.val) ∨
      (l.heap.fresh ≤ p ∧ Q node'.key node'.val)

variable {Q R : K → V → Prop} {l l' l'' : LRU K V}

theorem Evolves.holdsOnly (h : Evolves Q l l') (hl : HoldsOnly Q l) : HoldsOnly Q l' := by
  intro p node' hload
  rcases h.loads p node' hload with ⟨node, hnode, hkey, hval⟩ | ⟨-, hq⟩
  · rw [← hkey, ← hval]
    exact hl p node hnode
  · exact hq

theorem Evolves.pinned (h : Evolves Q l l') {p : Ptr} (hp : Pinned R l p) : Pinned R l' p := by
  refine ⟨hp.1.trans_le h.fresh_le, ?_⟩
  intro node' hload
  rcases h.loads p node' hload with ⟨node, hnode, hkey, hval⟩ | ⟨hle, -⟩
  · rw [← hkey, ← hval]
    exact hp.2 node hnode
  · exact absurd hp.1 (not_lt.2 hle)

/-- With the heap as it was. -/
theorem Evolves.of_heap_eq (h : l'.heap = l.heap) : Evolves Q l l' where
  fresh_le := by rw [h]
  loads := by
    intro p node' hload
    rw [h] at hload
    exact Or.inl ⟨node', hload, rfl, rfl⟩

theorem Evolves.trans (h : Evolves Q l l') (h' : Evolves Q l' l'') : Evolves Q l l'' where
  fresh_le := h.fresh_le.trans h'.fresh_le
  loads := by
    intro p node'' hload
    rcases h'.loads p node'' hload with ⟨node', hnode', hkey, hval⟩ | ⟨hle, hq⟩
    · rw [← hkey, ← hval]
      exact h.loads p node' hnode'
    · exact Or.inr ⟨h.fresh_le.trans hle, hq⟩

/-- A node whose count or mark is changed. -/
theorem Evolves.store {p : Ptr} {node node' : CacheNode K V} (hload : l.heap.load p = some node)
    (hheap : l'.heap = l.heap.store p node') (hkey : node'.key = node.key)
    (hval : node'.val = node.val) : Evolves Q l l' where
  fresh_le := by rw [hheap, Arena.fresh_store]
  loads := by
    intro q node₂ hq
    rw [hheap] at hq
    by_cases hqp : q = p
    · rw [hqp, Arena.load_store_self _ hload] at hq
      cases hq
      exact Or.inl ⟨node, hqp ▸ hload, hkey.symm, hval.symm⟩
    · rw [Arena.load_store_of_ne _ hqp] at hq
      exact Or.inl ⟨node₂, hq, rfl, rfl⟩

theorem Evolves.free {p : Ptr} (hheap : l'.heap = l.heap.free p) : Evolves Q l l' where
  fresh_le := by rw [hheap, Arena.fresh_free]
  loads := by
    intro q node hq
    rw [hheap] at hq
    by_cases hqp : q = p
    · rw [hqp, Arena.load_free_self] at hq
      cases hq
    · rw [Arena.load_free_of_ne hqp] at hq
      exact Or.inl ⟨node, hq, rfl, rfl⟩

theorem Evolves.alloc {node : CacheNode K V} (hheap : l'.heap = l.heap.alloc node)
    (hq : Q node.key node.val) : Evolves Q l l' where
  fresh_le := by
    rw [hheap, Arena.fresh_alloc]
    exact Nat.le_succ _
  loads := by
    intro p node' hp
    rw [hheap] at hp
    by_cases hpf : p = l.heap.fresh
    · rw [hpf, Arena.load_alloc_fresh] at hp
      cases hp
      exact Or.inr ⟨hpf.ge, hq⟩
    · rw [Arena.load_alloc_of_ne _ hpf] at hp
      exact Or.inl ⟨node', hp, rfl, rfl⟩

/-! ## The operations -/

variable [DecidableEq K] {key : K} {val : V} {p : Ptr}

omit [DecidableEq K] in
theorem ref_evolves (hrun : l.ref p = .ok l') : Evolves Q l l' := by
  rcases bind_eq_ok.1 hrun with ⟨node, hload, hrun⟩
  cases hrun
  exact .store (orFail_eq_ok.1 hload) rfl rfl rfl

theorem unref_evolves (hrun : l.unref p = .ok l') : Evolves Q l l' := by
  rcases bind_eq_ok.1 hrun with ⟨node, hload, hrun⟩
  simp only [pure_eq_ok] at hrun
  split at hrun
  · cases hrun
    exact .free rfl
  · cases hrun
    exact .store (orFail_eq_ok.1 hload) rfl rfl rfl

theorem phantomEraseNode_evolves (hrun : l.phantomEraseNode p = .ok l') : Evolves Q l l' := by
  rcases bind_eq_ok.1 hrun with ⟨node, hload, hrun⟩
  rcases bind_eq_ok.1 hrun with ⟨iter, -, hrun⟩
  -- marked as out of the cache, then one reference less
  refine Evolves.trans ?_ (unref_evolves hrun)
  exact .store (orFail_eq_ok.1 hload) rfl rfl rfl

theorem insert_evolves (hq : Q key val) (hrun : l.insert key val = .ok l') : Evolves Q l l' := by
  unfold insert at hrun
  cases hindex : l.index key with
  | some iter =>
      simp only [hindex] at hrun
      cases hrun
      exact .alloc rfl hq
  | none =>
      simp only [hindex] at hrun
      have hnew : Evolves Q l ((l.newNode key val).pushFront key l.heap.fresh) := .alloc rfl hq
      split at hrun
      · rcases bind_eq_ok.1 hrun with ⟨oldNode, -, hrun⟩
        exact hnew.trans (phantomEraseNode_evolves hrun)
      · cases hrun
        exact hnew

theorem erase_evolves (hrun : l.erase key = .ok l') : Evolves Q l l' := by
  unfold erase at hrun
  cases hindex : l.index key with
  | none =>
      simp only [hindex] at hrun
      cases hrun
      exact .of_heap_eq rfl
  | some iter =>
      simp only [hindex] at hrun
      exact phantomEraseNode_evolves hrun

theorem get_evolves {node : Option Ptr} (hrun : l.get key = .ok (l', node)) : Evolves Q l l' := by
  unfold get at hrun
  cases hindex : l.index key with
  | none =>
      simp only [hindex] at hrun
      cases hrun
      exact .of_heap_eq rfl
  | some iter =>
      simp only [hindex] at hrun
      rcases bind_eq_ok.1 hrun with ⟨l₁, href, hrun⟩
      cases hrun
      have hsplice : Evolves Q l (l.spliceFront key iter) := .of_heap_eq rfl
      exact hsplice.trans (ref_evolves href)

end LRU

namespace Cache

variable {K V : Type} [DecidableEq K] {hash : K → ℕ} {Q R : K → V → Prop} {c c' : Cache K V}
  {key : K} {val : V}

def HoldsOnly (Q : K → V → Prop) (c : Cache K V) : Prop := ∀ i, LRU.HoldsOnly Q (c.caches i)

def Evolves (Q : K → V → Prop) (c c' : Cache K V) : Prop :=
  ∀ i, LRU.Evolves Q (c.caches i) (c'.caches i)

omit [DecidableEq K] in
theorem new_holdsOnly (Q : K → V → Prop) (cap : ℕ) : HoldsOnly Q (new cap) := by
  intro i p node hload
  simp [new, LRU.new, Arena.empty, Arena.load] at hload

omit [DecidableEq K] in
theorem HoldsOnly.mono (h : HoldsOnly Q c) (hqr : ∀ k v, Q k v → R k v) : HoldsOnly R c :=
  fun i p node hload => hqr _ _ (h i p node hload)

omit [DecidableEq K] in
theorem Evolves.refl (Q : K → V → Prop) (c : Cache K V) : Evolves Q c c :=
  fun _ => .of_heap_eq rfl

omit [DecidableEq K] in
theorem Evolves.holdsOnly (h : Evolves Q c c') (hc : HoldsOnly Q c) : HoldsOnly Q c' :=
  fun i => (h i).holdsOnly (hc i)

omit [DecidableEq K] in
/-- One shard is replaced. -/
theorem setShard_evolves {i : Fin kShardingNum} {l : LRU K V}
    (hl : LRU.Evolves Q (c.caches i) l) : Evolves Q c (c.setShard i l) := by
  intro j
  by_cases hj : j = i
  · subst hj
    simpa [setShard] using hl
  · simpa [setShard, hj] using LRU.Evolves.of_heap_eq (Q := Q) (l := c.caches j) rfl

theorem insert_evolves (hq : Q key val) (hrun : c.insert hash key val = .ok c') :
    Evolves Q c c' := by
  rcases bind_eq_ok.1 hrun with ⟨l, hl, hrun⟩
  cases hrun
  exact setShard_evolves (LRU.insert_evolves hq hl)

theorem erase_evolves (hrun : c.erase hash key = .ok c') : Evolves Q c c' := by
  rcases bind_eq_ok.1 hrun with ⟨l, hl, hrun⟩
  cases hrun
  exact setShard_evolves (LRU.erase_evolves hl)

theorem get_evolves {node : Option Ptr} (hrun : c.get hash key = .ok (c', node)) :
    Evolves Q c c' := by
  rcases bind_eq_ok.1 hrun with ⟨⟨l, node'⟩, hl, hrun⟩
  cases hrun
  exact setShard_evolves (LRU.get_evolves hl)

/-! ## Nodes that are handed out -/

theorem Stocked.insert_returns (h : Stocked c) (hash : K → ℕ) (key : K) (val : V) :
    ∃ c', c.insert hash key val = .ok c' := by
  rcases h (shardingIndex hash key) with ⟨s, hs⟩
  rcases LRU.insert_shelved hs key val with ⟨l, hl, -, -⟩
  exact ⟨_, by simp only [Cache.insert, hl, ok_bind, pure_eq_ok]; rfl⟩

theorem Stocked.erase_returns (h : Stocked c) (hash : K → ℕ) (key : K) :
    ∃ c', c.erase hash key = .ok c' := by
  rcases h (shardingIndex hash key) with ⟨s, hs⟩
  rcases LRU.erase_shelved hs key with ⟨l, hl, -, -⟩
  exact ⟨_, by simp only [Cache.erase, hl, ok_bind, pure_eq_ok]; rfl⟩

/-- A `get` that finds nothing does nothing. -/
theorem get_none (hrun : c.get hash key = .ok (c', none)) : c' = c := by
  rcases get_ok hrun with ⟨l, hl, rfl⟩
  unfold LRU.get at hl
  cases hindex : (c.caches (shardingIndex hash key)).index key with
  | none =>
      simp only [hindex] at hl
      cases hl
      rw [setShard, Function.update_eq_self]
  | some iter =>
      simp only [hindex] at hl
      rcases bind_eq_ok.1 hl with ⟨l₁, -, hl⟩
      cases hl

/-- The node that `get` hands out is one of the key. -/
theorem Stocked.get_pinned (h : Stocked c) (hc : HoldsOnly Q c) {p : Ptr}
    (hrun : c.get hash key = .ok (c', some p)) :
    LRU.Pinned (fun k v => k = key ∧ Q k v) (c'.caches (shardingIndex hash key)) p := by
  rcases get_ok hrun with ⟨l, hl, rfl⟩
  rcases h (shardingIndex hash key) with ⟨s, hs⟩
  have hevolves : LRU.Evolves Q (c.caches (shardingIndex hash key)) l := LRU.get_evolves hl
  rcases hs.of_get hl with ⟨-, hnode⟩
  rw [← hs.index_eq] at hnode
  rcases hs.find_of_index hnode.symm with ⟨r, hfind, rfl⟩
  rcases hs.split hfind with ⟨A, B, hsplit, -, hkey, -⟩
  have hload := hs.linked.loads r (by simp [hsplit])
  have hpinned : LRU.Pinned (fun k v => k = key ∧ Q k v) (c.caches (shardingIndex hash key))
      r.ptr := by
    refine ⟨Arena.lt_fresh hload, ?_⟩
    intro node hnode'
    rw [hload] at hnode'
    cases hnode'
    exact ⟨hkey, hc _ _ _ hload⟩
  simpa [setShard] using hevolves.pinned hpinned

omit [DecidableEq K] in
/-- What is read through a pinned address. -/
theorem valueAt_pinned {p : Ptr} (hp : LRU.Pinned R (c.caches (shardingIndex hash key)) p)
    (hrun : c.valueAt hash key p = .ok val) : ∃ k, R k val := by
  rcases bind_eq_ok.1 hrun with ⟨node, hload, hrun⟩
  cases hrun
  exact ⟨node.key, hp.2 node (orFail_eq_ok.1 hload)⟩

end Cache

end Smallkv
