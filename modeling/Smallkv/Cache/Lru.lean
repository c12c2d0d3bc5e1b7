import Smallkv.Lib.Arena
import Smallkv.Lib.Assoc
import Smallkv.Base

/-!
# Cache.Lru — one shard of the cache

Nodes live on a heap; `nodes` lists the resident ones from the most to the
least recently used, `index` finds them by key, and a node that leaves the
shard while it is referenced waits in `garbageStation`. `Linked l rs` says that
the three agree on the residents `rs`, and each operation is described by what
it makes of that list.
-/

namespace Smallkv

open Fallible Assoc

/-- `Node`; hash value and access time are never read. -/
structure CacheNode (K V : Type) where
  key : K
  val : V
  refCnt : ℤ
  inCache : Bool

structure LRU (K V : Type) where
  cap : ℕ
  heap : Arena (CacheNode K V)
  nodes : List Ptr
  index : K → Option Ptr
  garbageStation : K → Option Ptr
  /-- what the registered destructor was called on, in order -/
  destroyed : List V

namespace LRU

variable {K V : Type}

def new (cap : ℕ) : LRU K V where
  cap := cap
  heap := Arena.empty
  nodes := []
  index := fun _ => none
  garbageStation := fun _ => none
  destroyed := []

variable [DecidableEq K]

/-- `ref`: the count is an `int32_t`. -/
def ref (l : LRU K V) (p : Ptr) : Exec (LRU K V) := do
  let node ← orFail .badAccess (l.heap.load p)
  pure { l with heap := l.heap.store p { node with refCnt := asInt32 (node.refCnt + 1) } }

/-- `unref`: a node whose count is used up is destroyed. -/
def unref (l : LRU K V) (p : Ptr) : Exec (LRU K V) := do
  let node ← orFail .badAccess (l.heap.load p)
  let refCnt := asInt32 (node.refCnt - 1)
  if refCnt ≤ 0 then
    -- the garbage station forgets the key, whichever node it has for it
    pure
      { l with
        heap := l.heap.free p
        garbageStation := Function.update l.garbageStation node.key none
        destroyed := l.destroyed ++ [node.val] }
  else pure { l with heap := l.heap.store p { node with refCnt := refCnt } }

/-- `phantom_erase_node`: out of `nodes` and `index`, into the garbage station,
one reference less. -/
def phantomEraseNode (l : LRU K V) (p : Ptr) : Exec (LRU K V) := do
  let node ← orFail .badAccess (l.heap.load p)
  let iter ← orFail .badAccess (l.index node.key)
  let l :=
    { l with
      heap := l.heap.store p { node with inCache := false }
      nodes := l.nodes.erase iter
      index := Function.update l.index node.key none
      garbageStation := Function.update l.garbageStation node.key (some p) }
  l.unref p

/-- `new Node`, at the next address. -/
def newNode (l : LRU K V) (key : K) (val : V) : LRU K V :=
  { l with heap := l.heap.alloc { key := key, val := val, refCnt := 1, inCache := true } }

/-- `nodes.push_front(p); index[key] = nodes.begin()`. -/
def pushFront (l : LRU K V) (key : K) (p : Ptr) : LRU K V :=
  { l with nodes := p :: l.nodes, index := Function.update l.index key (some p) }

/-- `nodes.splice(nodes.begin(), nodes, iter); index[key] = nodes.begin()`. -/
def spliceFront (l : LRU K V) (key : K) (iter : Ptr) : LRU K V :=
  { l with nodes := iter :: l.nodes.erase iter, index := Function.update l.index key (some iter) }

/-- `insert`: a new key goes to the front and may push the last one out; for a
key that is there, the node that is there moves to the front. -/
def insert (l : LRU K V) (key : K) (val : V) : Exec (LRU K V) :=
  match l.index key with
  | none => do
    let l := (l.newNode key val).pushFront key l.heap.fresh
    -- full: the last node is given up, with no capacity the new one itself
    if l.nodes.length > l.cap then do
      let oldNode ← orFail .badAccess l.nodes.getLast?
      l.phantomEraseNode oldNode
    else pure l
  -- the node that was made is linked nowhere, so its value is lost
  | some iter => pure ((l.newNode key val).spliceFront key iter)

def erase (l : LRU K V) (key : K) : Exec (LRU K V) :=
  match l.index key with
  | none => pure l
  | some iter => l.phantomEraseNode iter

/-- `get`: a node that is found moves to the front and is referenced once more. -/
def get (l : LRU K V) (key : K) : Exec (LRU K V × Option Ptr) :=
  match l.index key with
  | none => pure (l, none)
  | some iter => do
    let l ← (l.spliceFront key iter).ref iter
    pure (l, some iter)

def contains (l : LRU K V) (key : K) : Bool := (l.index key).isSome

/-- `release`: one reference less for the node the index has for the key. -/
def release (l : LRU K V) (key : K) : Exec (LRU K V) := do
  let iter ← orFail .badAccess (l.index key)
  l.unref iter

/-- `*node->val` of a node that was handed out. -/
def valueAt (l : LRU K V) (p : Ptr) : Exec V := do
  let node ← orFail .badAccess (l.heap.load p)
  pure node.val

/-! ## The residents -/

/-- A resident: where its node is and what it holds. -/
structure Resident (K V : Type) where
  ptr : Ptr
  node : CacheNode K V

def Resident.entry (r : Resident K V) : K × V := (r.node.key, r.node.val)

/-- List, index and heap agree on the residents. -/
structure Linked (l : LRU K V) (rs : List (Resident K V)) : Prop where
  nodes_eq : l.nodes = rs.map Resident.ptr
  loads : ∀ r ∈ rs, l.heap.load r.ptr = some r.node
  ptr_nodup : (rs.map Resident.ptr).Nodup
  key_nodup : (rs.map fun r => r.node.key).Nodup
  index_eq : l.index = toMap (rs.map fun r => (r.node.key, r.ptr))
  in_cache : ∀ r ∈ rs, r.node.inCache = true

/-- The same within the capacity: what holds between operations. -/
structure Wf (l : LRU K V) (rs : List (Resident K V)) : Prop where
  linked : Linked l rs
  length_le : rs.length ≤ l.cap

/-- The value that a list of residents has for a key. -/
def lookup (rs : List (Resident K V)) : K → Option V := toMap (rs.map Resident.entry)

theorem new_wf (cap : ℕ) : Wf (new cap : LRU K V) [] where
  linked :=
    { nodes_eq := rfl
      loads := by simp
      ptr_nodup := by simp
      key_nodup := by simp
      index_eq := rfl
      in_cache := by simp }
  length_le := Nat.zero_le _

section Residents

variable {l : LRU K V} {rs : List (Resident K V)}

/-- A key that the index knows splits the residents at its node. -/
theorem Linked.split (h : Linked l rs) {key : K} {p : Ptr} (hp : l.index key = some p) :
    ∃ A r B, rs = A ++ r :: B ∧ r.ptr = p ∧ r.node.key = key := by
  have hnodup : ((rs.map fun r => (r.node.key, r.ptr)).map Prod.fst).Nodup := by
    simpa [Function.comp_def] using h.key_nodup
  rw [h.index_eq, toMap_eq_some_iff hnodup] at hp
  rcases List.mem_map.1 hp with ⟨r, hr, heq⟩
  rcases List.append_of_mem hr with ⟨A, B, hsplit⟩
  simp only [Prod.mk.injEq] at heq
  exact ⟨A, r, B, hsplit, heq.2, heq.1⟩

/-- A key that the index does not know has no resident. -/
theorem Linked.absent (h : Linked l rs) {key : K} (hp : l.index key = none) :
    key ∉ rs.map fun r => r.node.key := by
  rw [h.index_eq, toMap_eq_none_iff] at hp
  simpa [Function.comp_def] using hp

theorem Linked.lookup_some (h : Linked l rs) {A B : List (Resident K V)} {r : Resident K V}
    (hsplit : rs = A ++ r :: B) : lookup rs r.node.key = some r.node.val := by
  have hnodup : ((rs.map Resident.entry).map Prod.fst).Nodup := by
    simpa [Function.comp_def, Resident.entry] using h.key_nodup
  rw [lookup, toMap_eq_some_iff hnodup]
  exact List.mem_map.2 ⟨r, by simp [hsplit], rfl⟩

theorem lookup_none {key : K} (hkey : key ∉ rs.map fun r => r.node.key) :
    lookup rs key = none := by
  rw [lookup, toMap_eq_none_iff]
  simpa [Function.comp_def, Resident.entry] using hkey

/-- The index knows exactly the keys that have a value. -/
theorem Linked.contains_eq (h : Linked l rs) (key : K) :
    l.contains key = (lookup rs key).isSome := by
  cases hp : l.index key with
  | none => simp [contains, hp, lookup_none (h.absent hp)]
  | some p =>
      rcases h.split hp with ⟨A, r, B, hsplit, -, rfl⟩
      simp [contains, hp, h.lookup_some hsplit]

omit [DecidableEq K] in
/-- A resident's key occurs once. -/
theorem key_split {A B : List (Resident K V)} {r : Resident K V}
    (hnodup : ((A ++ r :: B).map fun r => r.node.key).Nodup) :
    r.node.key ∉ A.map (fun r => r.node.key) ∧ r.node.key ∉ B.map (fun r => r.node.key) := by
  simp only [List.map_append, List.map_cons, List.nodup_append, List.nodup_cons] at hnodup
  rcases hnodup with ⟨-, ⟨hB, -⟩, hAB⟩
  exact ⟨fun hA => hAB _ hA _ List.mem_cons_self rfl, hB⟩

/-- Removing a resident removes its key, from any map over the residents. -/
theorem toMap_remove_resident {W : Type} (f : Resident K V → W) {A B : List (Resident K V)}
    {r : Resident K V} (hnodup : ((A ++ r :: B).map fun r => r.node.key).Nodup) :
    toMap ((A ++ B).map fun r => (r.node.key, f r)) =
      Function.update (toMap ((A ++ r :: B).map fun r => (r.node.key, f r))) r.node.key none := by
  rcases key_split hnodup with ⟨hA, hB⟩
  simp only [List.map_append, List.map_cons]
  apply toMap_remove
  · simpa [Function.comp_def] using hA
  · simpa [Function.comp_def] using hB

/-- The order of the residents does not matter to such a map. -/
theorem toMap_toFront_resident {W : Type} (f : Resident K V → W) {A B : List (Resident K V)}
    {r : Resident K V} (hnodup : ((A ++ r :: B).map fun r => r.node.key).Nodup) :
    toMap ((r :: (A ++ B)).map fun r => (r.node.key, f r)) =
      toMap ((A ++ r :: B).map fun r => (r.node.key, f r)) := by
  rcases key_split hnodup with ⟨hA, -⟩
  simp only [List.map_append, List.map_cons]
  apply toMap_toFront
  simpa [Function.comp_def] using hA

/-- Changing a node that is not resident, or the garbage, keeps the residents. -/
theorem Linked.frame {l' : LRU K V} (h : Linked l rs) (hnodes : l'.nodes = l.nodes)
    (hindex : l'.index = l.index)
    (hload : ∀ r ∈ rs, l'.heap.load r.ptr = l.heap.load r.ptr) : Linked l' rs where
  nodes_eq := hnodes.trans h.nodes_eq
  loads := by
    intro r hr
    rw [hload r hr]
    exact h.loads r hr
  ptr_nodup := h.ptr_nodup
  key_nodup := h.key_nodup
  index_eq := hindex.trans h.index_eq
  in_cache := h.in_cache

/-- `unref` of a node that is not resident touches no resident. -/
theorem unref_spec (h : Linked l rs) {p : Ptr} {node : CacheNode K V}
    (hload : l.heap.load p = some node) (hp : ∀ r ∈ rs, r.ptr ≠ p) :
    ∃ l', l.unref p = .ok l' ∧ Linked l' rs ∧ l'.cap = l.cap := by
  unfold unref
  rw [hload, orFail_some, ok_bind]
  by_cases hcnt : asInt32 (node.refCnt - 1) ≤ 0
  · rw [if_pos hcnt]
    exact ⟨_, rfl, h.frame rfl rfl fun r hr => Arena.load_free_of_ne (hp r hr), rfl⟩
  · rw [if_neg hcnt]
    exact ⟨_, rfl, h.frame rfl rfl fun r hr => Arena.load_store_of_ne _ (hp r hr), rfl⟩

/-- A resident's pointer occurs once. -/
theorem Linked.ptr_ne (h : Linked l rs) {A B : List (Resident K V)} {r : Resident K V}
    (hsplit : rs = A ++ r :: B) : ∀ q ∈ A ++ B, q.ptr ≠ r.ptr := by
  have hnodup := h.ptr_nodup
  simp only [hsplit, List.map_append, List.map_cons, List.nodup_append, List.nodup_cons] at hnodup
  rcases hnodup with ⟨-, ⟨hB, -⟩, hAB⟩
  intro q hq heq
  rcases List.mem_append.1 hq with hq | hq
  · exact hAB _ (List.mem_map_of_mem hq) _ List.mem_cons_self heq
  · exact hB (heq ▸ List.mem_map_of_mem hq)

/-- Unlinking a node from the list of nodes. -/
theorem Linked.erase_nodes (h : Linked l rs) {A B : List (Resident K V)} {r : Resident K V}
    (hsplit : rs = A ++ r :: B) : l.nodes.erase r.ptr = (A ++ B).map Resident.ptr := by
  have hA : r.ptr ∉ A.map Resident.ptr := by
    rw [List.mem_map]
    rintro ⟨q, hq, heq⟩
    exact h.ptr_ne hsplit q (by simp [hq]) heq
  rw [h.nodes_eq, hsplit, List.map_append, List.map_cons, List.erase_append_right _ hA,
    List.erase_cons_head, List.map_append]

theorem Linked.index_of_split (h : Linked l rs) {A B : List (Resident K V)} {r : Resident K V}
    (hsplit : rs = A ++ r :: B) : l.index r.node.key = some r.ptr := by
  have hnodup : ((rs.map fun r => (r.node.key, r.ptr)).map Prod.fst).Nodup := by
    simpa [Function.comp_def] using h.key_nodup
  rw [h.index_eq, toMap_eq_some_iff hnodup, hsplit]
  simp

/-- `phantom_erase_node` takes a resident out. -/
theorem phantomEraseNode_spec (h : Linked l rs) {A B : List (Resident K V)} {r : Resident K V}
    (hsplit : rs = A ++ r :: B) :
    ∃ l', l.phantomEraseNode r.ptr = .ok l' ∧ Linked l' (A ++ B) ∧ l'.cap = l.cap := by
  have hload : l.heap.load r.ptr = some r.node := h.loads r (by simp [hsplit])
  have hindex := h.index_of_split hsplit
  have hkeys := h.key_nodup
  have hptrs := h.ptr_nodup
  rw [hsplit] at hkeys hptrs
  have hsub : (A ++ B).Sublist (A ++ r :: B) := (List.sublist_cons_self r B).append_left A
  -- the residents once the node is unlinked, before its count goes down
  have hlinked : Linked
      { l with
        heap := l.heap.store r.ptr { r.node with inCache := false }
        nodes := l.nodes.erase r.ptr
        index := Function.update l.index r.node.key none
        garbageStation := Function.update l.garbageStation r.node.key (some r.ptr) } (A ++ B) :=
    { nodes_eq := h.erase_nodes hsplit
      loads := by
        intro q hq
        rw [Arena.load_store_of_ne _ (h.ptr_ne hsplit q hq)]
        exact h.loads q (hsplit ▸ hsub.subset hq)
      ptr_nodup := hptrs.sublist (hsub.map _)
      key_nodup := hkeys.sublist (hsub.map _)
      index_eq := by
        rw [toMap_remove_resident Resident.ptr hkeys, ← hsplit, ← h.index_eq]
      in_cache := by
        intro q hq
        exact h.in_cache q (hsplit ▸ hsub.subset hq) }
  rcases unref_spec hlinked (Arena.load_store_self _ hload) (h.ptr_ne hsplit) with
    ⟨l', hunref, hlinked', hcap⟩
  refine ⟨l', ?_, hlinked', hcap⟩
  simp only [phantomEraseNode, hload, hindex, orFail_some, ok_bind]
  exact hunref

theorem Wf.split_length (h : Wf l rs) {A B : List (Resident K V)} {r : Resident K V}
    (hsplit : rs = A ++ r :: B) : A.length + B.length + 1 ≤ l.cap := by
  have hle := h.length_le
  rw [hsplit, List.length_append, List.length_cons] at hle
  omega

/-- Moving a resident's node to the front. -/
theorem Linked.spliceFront (h : Linked l rs) {A B : List (Resident K V)} {r : Resident K V}
    (hsplit : rs = A ++ r :: B) : Linked (l.spliceFront r.node.key r.ptr) (r :: (A ++ B)) := by
  have hperm : (r :: (A ++ B)).Perm (A ++ r :: B) := List.perm_middle.symm
  have hkeys := h.key_nodup
  have hptrs := h.ptr_nodup
  have hindex := h.index_of_split hsplit
  rw [hsplit] at hkeys hptrs
  exact
    { nodes_eq := by rw [LRU.spliceFront, List.map_cons, h.erase_nodes hsplit]
      loads := by
        intro q hq
        exact h.loads q (hsplit ▸ hperm.subset hq)
      ptr_nodup := (hperm.map _).nodup_iff.2 hptrs
      key_nodup := (hperm.map _).nodup_iff.2 hkeys
      index_eq := by
        rw [toMap_toFront_resident Resident.ptr hkeys, ← hsplit, ← h.index_eq, LRU.spliceFront,
          ← hindex, Function.update_eq_self]
      in_cache := by
        intro q hq
        exact h.in_cache q (hsplit ▸ hperm.subset hq) }

/-- Putting a new node in front. -/
theorem Linked.pushFront (h : Linked l rs) {key : K} (hkey : l.index key = none) (val : V) :
    Linked ((l.newNode key val).pushFront key l.heap.fresh)
      (⟨l.heap.fresh, { key := key, val := val, refCnt := 1, inCache := true }⟩ :: rs) := by
  have hfresh : ∀ q ∈ rs, q.ptr ≠ l.heap.fresh := by
    intro q hq
    exact Arena.ne_fresh (h.loads q hq)
  exact
    { nodes_eq := by rw [LRU.pushFront, newNode, h.nodes_eq, List.map_cons]
      loads := by
        intro q hq
        rcases List.mem_cons.1 hq with rfl | hq
        · exact Arena.load_alloc_fresh _ _
        · exact (Arena.load_alloc_of_ne _ (hfresh q hq)).trans (h.loads q hq)
      ptr_nodup := by
        refine List.nodup_cons.2 ⟨?_, h.ptr_nodup⟩
        rw [List.mem_map]
        rintro ⟨q, hq, heq⟩
        exact hfresh q hq heq
      key_nodup := List.nodup_cons.2 ⟨h.absent hkey, h.key_nodup⟩
      index_eq := by
        have hindex : ((l.newNode key val).pushFront key l.heap.fresh).index =
            Function.update l.index key (some l.heap.fresh) := rfl
        funext k
        rw [hindex, h.index_eq, List.map_cons, toMap_cons, Function.update_apply]
      in_cache := by
        intro q hq
        rcases List.mem_cons.1 hq with rfl | hq
        · rfl
        · exact h.in_cache q hq }

/-! ## Operations -/

/-- A key that is not there goes to the front; what exceeds the capacity, the
last resident, goes. -/
theorem insert_absent (h : Wf l rs) {key : K} (hkey : l.index key = none) (val : V) :
    ∃ l' r, l.insert key val = .ok l' ∧ Resident.entry r = (key, val) ∧
      Wf l' ((r :: rs).take l.cap) ∧ l'.cap = l.cap := by
  have hpush := h.linked.pushFront hkey val
  have hcount : ((l.newNode key val).pushFront key l.heap.fresh).nodes.length = rs.length + 1 := by
    rw [hpush.nodes_eq]
    simp
  have hcap : ((l.newNode key val).pushFront key l.heap.fresh).cap = l.cap := rfl
  have hle := h.length_le
  generalize hr : (⟨l.heap.fresh, { key := key, val := val, refCnt := 1, inCache := true }⟩ :
    Resident K V) = r at hpush
  have hentry : r.entry = (key, val) := by rw [← hr]; rfl
  by_cases hfull : rs.length + 1 > l.cap
  · -- one too many: the last resident goes
    rcases List.eq_nil_or_concat (r :: rs) with hnil | ⟨A, last, hconcat⟩
    · cases hnil
    rw [List.concat_eq_append] at hconcat
    have htake : (r :: rs).take l.cap = A := by
      have hA := congrArg List.length hconcat
      simp only [List.length_cons, List.length_append, List.length_nil] at hA
      rw [hconcat, show l.cap = A.length by omega, List.take_left]
    rcases phantomEraseNode_spec hpush hconcat with ⟨l', herase, hlinked, hcap'⟩
    rw [List.append_nil, ← htake] at hlinked
    refine ⟨l', r, ?_, hentry, ⟨hlinked, ?_⟩, hcap'⟩
    · have hlast : ((l.newNode key val).pushFront key l.heap.fresh).nodes.getLast? =
          some last.ptr := by
        rw [hpush.nodes_eq, hconcat]
        simp
      simp only [insert, hkey, hcount, hcap, if_pos hfull, hlast, orFail_some, ok_bind]
      exact herase
    · rw [hcap']
      exact List.length_take_le _ _
  · -- there is room for all of them
    have hlen : (r :: rs).length ≤ l.cap := by
      simp only [List.length_cons]
      omega
    refine ⟨(l.newNode key val).pushFront key l.heap.fresh, r, ?_, hentry, ?_, rfl⟩
    · simp only [insert, hkey, hcount, hcap, if_neg hfull]
      rfl
    · rw [List.take_of_length_le hlen]
      exact ⟨hpush, hlen⟩

/-- A key that is there moves to the front and keeps its value. -/
theorem insert_present (h : Wf l rs) {key : K} {p : Ptr} (hkey : l.index key = some p) (val : V) :
    ∃ l' A r B, l.insert key val = .ok l' ∧ rs = A ++ r :: B ∧ r.node.key = key ∧
      Wf l' (r :: (A ++ B)) ∧ l'.cap = l.cap := by
  rcases h.linked.split hkey with ⟨A, r, B, hsplit, rfl, rfl⟩
  have hnew : Linked (l.newNode r.node.key val) rs :=
    h.linked.frame rfl rfl fun q hq => Arena.load_alloc_of_ne _ (Arena.ne_fresh (h.linked.loads q hq))
  refine ⟨(l.newNode r.node.key val).spliceFront r.node.key r.ptr, A, r, B, ?_, hsplit, rfl,
    ⟨hnew.spliceFront hsplit, ?_⟩, rfl⟩
  · simp [insert, hkey]
  · rw [List.length_cons, List.length_append]
    exact h.split_length hsplit

theorem erase_absent {key : K} (hkey : l.index key = none) : l.erase key = .ok l := by
  simp [erase, hkey]

theorem erase_present (h : Wf l rs) {key : K} {p : Ptr} (hkey : l.index key = some p) :
    ∃ l' A r B, l.erase key = .ok l' ∧ rs = A ++ r :: B ∧ r.node.key = key ∧
      Wf l' (A ++ B) ∧ l'.cap = l.cap := by
  rcases h.linked.split hkey with ⟨A, r, B, hsplit, rfl, rfl⟩
  rcases phantomEraseNode_spec h.linked hsplit with ⟨l', herase, hlinked, hcap⟩
  refine ⟨l', A, r, B, by simp [erase, hkey, herase], hsplit, rfl, ⟨hlinked, ?_⟩, hcap⟩
  have hle := h.split_length hsplit
  rw [hcap, List.length_append]
  omega

theorem get_absent {key : K} (hkey : l.index key = none) : l.get key = .ok (l, none) := by
  simp [get, hkey]

/-- A key that is found moves to the front; the node handed out holds its value. -/
theorem get_present (h : Wf l rs) {key : K} {p : Ptr} (hkey : l.index key = some p) :
    ∃ l' A r r' B, l.get key = .ok (l', some p) ∧ rs = A ++ r :: B ∧ r.node.key = key ∧
      r'.entry = r.entry ∧ l'.valueAt p = .ok r.node.val ∧ Wf l' (r' :: (A ++ B)) ∧
      l'.cap = l.cap := by
  rcases h.linked.split hkey with ⟨A, r, B, hsplit, rfl, rfl⟩
  have hfront := h.linked.spliceFront hsplit
  have hload : l.heap.load r.ptr = some r.node := h.linked.loads r (by simp [hsplit])
  have hne := h.linked.ptr_ne hsplit
  refine ⟨{ l.spliceFront r.node.key r.ptr with
      heap := l.heap.store r.ptr { r.node with refCnt := asInt32 (r.node.refCnt + 1) } },
    A, r, ⟨r.ptr, { r.node with refCnt := asInt32 (r.node.refCnt + 1) }⟩, B, ?_, hsplit, rfl, rfl,
    ?_, ⟨?_, ?_⟩, rfl⟩
  · have hload' : (l.spliceFront r.node.key r.ptr).heap.load r.ptr = some r.node := hload
    simp only [get, hkey, ref, hload', orFail_some, ok_bind, pure_eq_ok]
    rfl
  · simp [valueAt, Arena.load_store_self _ hload]
  · exact
      { nodes_eq := hfront.nodes_eq
        loads := by
          intro q hq
          rcases List.mem_cons.1 hq with rfl | hq
          · exact Arena.load_store_self _ hload
          · exact (Arena.load_store_of_ne _ (hne q hq)).trans (hfront.loads q (by simp [hq]))
        ptr_nodup := hfront.ptr_nodup
        key_nodup := hfront.key_nodup
        index_eq := hfront.index_eq
        in_cache := by
          intro q hq
          rcases List.mem_cons.1 hq with rfl | hq
          · exact hfront.in_cache r (by simp)
          · exact hfront.in_cache q (by simp [hq]) }
  · rw [List.length_cons, List.length_append]
    exact h.split_length hsplit

/-! ## Operations on the map -/

/-- `insert` puts the pair in unless the key is there, and may lose other keys;
without capacity it loses its own. -/
theorem insert_spec (h : Wf l rs) (key : K) (val : V) :
    ∃ l' rs', l.insert key val = .ok l' ∧ Wf l' rs' ∧ l'.cap = l.cap ∧
      Submap (lookup rs') (insertMap (lookup rs) key val) ∧
      (lookup rs key = none → 0 < l.cap → lookup rs' key = some val) ∧
      (lookup rs key ≠ none → lookup rs' = lookup rs) := by
  cases hkey : l.index key with
  | none =>
      have hnone := lookup_none (h.linked.absent hkey)
      rcases insert_absent h hkey val with ⟨l', r, hrun, hentry, hwf, hcap⟩
      have hpush : lookup (r :: rs) = insertMap (lookup rs) key val := by
        funext k
        rw [insertMap_of_none hnone, lookup, List.map_cons, hentry, toMap_cons,
          Function.update_apply, lookup]
      refine ⟨l', _, hrun, hwf, hcap, ?_, ?_, fun hsome => absurd hnone hsome⟩
      · -- what is kept is the beginning of the list
        rw [← hpush, lookup, lookup, ← List.take_append_drop l.cap (r :: rs), List.map_append,
          List.take_append_drop]
        exact toMap_submap_append _ _
      · intro _ hpos
        have htake : (r :: rs).take l.cap = r :: rs.take (l.cap - 1) := by
          rw [show l.cap = (l.cap - 1) + 1 by omega]
          rfl
        rw [htake, lookup, List.map_cons, hentry, toMap_cons, if_pos rfl]
  | some p =>
      rcases insert_present h hkey val with ⟨l', A, r, B, hrun, hsplit, rfl, hwf, hcap⟩
      have hkeys := h.linked.key_nodup
      have hsome := h.linked.lookup_some hsplit
      rw [hsplit] at hkeys
      -- the entry goes to the front with the value it had
      have hsame : lookup (r :: (A ++ B)) = lookup rs := by
        rw [hsplit]
        exact toMap_toFront_resident (fun r => r.node.val) hkeys
      refine ⟨l', _, hrun, hwf, hcap, ?_, ?_, fun _ => hsame⟩
      · rw [hsame, insertMap_of_some hsome]
        exact fun _ _ hk => hk
      · intro hnone
        rw [hsome] at hnone
        cases hnone

/-- `erase` removes the key. -/
theorem erase_spec (h : Wf l rs) (key : K) :
    ∃ l' rs', l.erase key = .ok l' ∧ Wf l' rs' ∧ l'.cap = l.cap ∧
      lookup rs' = Function.update (lookup rs) key none := by
  cases hkey : l.index key with
  | none =>
      refine ⟨l, rs, erase_absent hkey, h, rfl, ?_⟩
      rw [← lookup_none (h.linked.absent hkey), Function.update_eq_self]
  | some p =>
      rcases erase_present h hkey with ⟨l', A, r, B, hrun, hsplit, rfl, hwf, hcap⟩
      have hkeys := h.linked.key_nodup
      rw [hsplit] at hkeys
      refine ⟨l', _, hrun, hwf, hcap, ?_⟩
      rw [hsplit]
      exact toMap_remove_resident (fun r => r.node.val) hkeys

/-- `get` of a key that is there hands out a node with its value. -/
theorem get_spec (h : Wf l rs) {key : K} {val : V} (hkey : lookup rs key = some val) :
    ∃ l' rs' p, l.get key = .ok (l', some p) ∧ l'.valueAt p = .ok val ∧ Wf l' rs' ∧
      l'.cap = l.cap ∧ lookup rs' = lookup rs := by
  cases hindex : l.index key with
  | none =>
      rw [lookup_none (h.linked.absent hindex)] at hkey
      cases hkey
  | some p =>
      rcases get_present h hindex with
        ⟨l', A, r, r', B, hrun, hsplit, rfl, hentry, hval, hwf, hcap⟩
      have hkeys := h.linked.key_nodup
      rw [h.linked.lookup_some hsplit] at hkey
      rw [hsplit] at hkeys
      cases hkey
      refine ⟨l', _, p, hrun, hval, hwf, hcap, ?_⟩
      rw [lookup, List.map_cons, hentry, ← List.map_cons, hsplit]
      exact toMap_toFront_resident (fun r => r.node.val) hkeys

end Residents

end LRU

end Smallkv
