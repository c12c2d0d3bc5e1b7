import Smallkv.Cache.Shelf

/-!
# Cache.Residency — which keys a shard has, in which order, and with which value

A shard is called in any order. The keys of `nodes` are those of a reference
list that brings what is used to the front and gives up its last key
(`lru_residency`). The values are another matter: a key that is in the shard
keeps the value it has, so what `get` hands out is the last value inserted only
as long as no insertion finds another one (`lru_fresh_iff`).
-/

namespace Smallkv

open Fallible Assoc

namespace LRU

variable {K V : Type} [DecidableEq K]

/-- A call on a shard. -/
inductive Call (K V : Type) where
  | insert (key : K) (val : V)
  | erase (key : K)
  | get (key : K)
  | contains (key : K)

/-- What a call makes of the shard; its answer is left out. -/
def call (l : LRU K V) : Call K V → Exec (LRU K V)
  | .insert key val => l.insert key val
  | .erase key => l.erase key
  | .get key => do
    let (l, _) ← l.get key
    pure l
  | .contains _ => pure l

def Shelf.call (s : Shelf K V) (cap : ℕ) (p : Ptr) : Call K V → Shelf K V
  | .insert key val => s.insert cap p key val
  | .erase key => s.erase key
  | .get key => s.get key
  | .contains _ => s

variable {l : LRU K V} {s : Shelf K V}

/-- Every call returns, and does to the shelf what it does to the shard. -/
theorem call_shelved (h : Shelved l s) (c : Call K V) :
    ∃ l', l.call c = .ok l' ∧ Shelved l' (s.call l.cap l.heap.fresh c) ∧ l'.cap = l.cap := by
  cases c with
  | insert key val => exact insert_shelved h key val
  | erase key => exact erase_shelved h key
  | get key =>
      rcases get_shelved h key with ⟨l', hrun, hl', hcap⟩
      exact ⟨l', by simp only [call, hrun, ok_bind, pure_eq_ok], hl', hcap⟩
  | contains key => exact ⟨l, rfl, h, rfl⟩

/-! ## The reference list -/

/-- What a call makes of the keys: what is inserted or found comes to the front,
and a list that is too long loses its last key. -/
def recent (cap : ℕ) (ks : List K) : Call K V → List K
  | .insert key _ =>
    let ks := key :: ks.erase key
    if ks.length > cap then ks.dropLast else ks
  | .erase key => ks.erase key
  | .get key => if key ∈ ks then key :: ks.erase key else ks
  | .contains _ => ks

def recency (cap : ℕ) (calls : List (Call K V)) : List K := calls.foldl (recent cap) []

/-- The shard has the keys `ks`, front to back, and the index agrees. -/
structure Lists (l : LRU K V) (ks : List K) : Prop where
  keys : l.nodes.map (fun p => (l.heap.load p).map CacheNode.key) = ks.map some
  nodup : ks.Nodup
  index : ∀ k p, l.index k = some p ↔
    p ∈ l.nodes ∧ (l.heap.load p).map CacheNode.key = some k
  contains : ∀ k, l.contains k = true ↔ k ∈ ks
  in_cache : ∀ p ∈ l.nodes, (l.heap.load p).map CacheNode.inCache = some true
  length_le : l.nodes.length ≤ l.cap

def Shelf.keys (s : Shelf K V) : List K := s.residents.map fun r => r.node.key

theorem find_eq_none_iff {key : K} : s.find key = none ↔ key ∉ s.keys := by
  simp [Shelf.find, Shelf.keys]

theorem Shelved.keys_nodup (h : Shelved l s) : s.keys.Nodup := h.linked.key_nodup

theorem keys_others (h : Shelved l s) {key : K} {r : Resident K V}
    (hfind : s.find key = some r) :
    key ∈ s.keys ∧ (s.others key).map (fun r => r.node.key) = s.keys.erase key := by
  rcases h.split hfind with ⟨A, B, hsplit, hothers, rfl, -⟩
  have hnodup := h.keys_nodup
  rw [Shelf.keys, hsplit] at hnodup
  rw [Shelf.keys, hothers, hsplit]
  refine ⟨by simp, ?_⟩
  rw [List.map_append, List.map_append, List.map_cons,
    List.erase_append_right _ (key_split hnodup).1, List.erase_cons_head]

/-- Giving up the last resident. -/
theorem keys_displace_last {r : Resident K V} (hnodup : (s.push r).keys.Nodup) :
    ((s.push r).displace ((r :: s.residents).getLast (List.cons_ne_nil _ _))).keys =
      (s.push r).keys.dropLast := by
  have hothers := others_of_split (s.push_last r) hnodup
  rw [List.append_nil] at hothers
  rw [Shelf.keys, Shelf.residents_displace, hothers, List.map_dropLast]
  rfl

theorem call_keys (h : Shelved l s) (hlen : s.keys.length ≤ l.cap) (c : Call K V) :
    (s.call l.cap l.heap.fresh c).keys = recent l.cap s.keys c := by
  cases c with
  | insert key val =>
      rw [Shelf.call, recent]
      cases hfind : s.find key with
      | none =>
          have hkey := find_eq_none_iff.1 hfind
          have hkeys : (s.push (.made l.heap.fresh key val)).keys = key :: s.keys := rfl
          have hnodup : (s.push (.made l.heap.fresh key val)).keys.Nodup :=
            List.nodup_cons.2 ⟨hkey, h.keys_nodup⟩
          have hlength : s.residents.length = s.keys.length := by simp [Shelf.keys]
          rw [List.erase_of_not_mem hkey, List.length_cons, ← hlength]
          -- the key that goes is the last one in both lists
          by_cases hfull : s.residents.length + 1 > l.cap
          · rw [if_pos hfull, Shelf.insert_full hfind hfull, keys_displace_last hnodup, hkeys]
          · rw [if_neg hfull, Shelf.insert_room hfind hfull, hkeys]
      | some r =>
          rcases keys_others h hfind with ⟨hmem, hothers⟩
          have hlength := List.length_erase_of_mem hmem
          have hpos := List.length_pos_of_mem hmem
          -- as many keys as before: nothing has to go
          have hroom : ¬ (key :: s.keys.erase key).length > l.cap := by
            rw [List.length_cons]
            omega
          rcases h.split hfind with ⟨A, B, -, -, hkey, -⟩
          rw [if_neg hroom, Shelf.insert_found hfind, Shelf.keys, List.map_cons, hothers, hkey]
  | erase key =>
      rw [Shelf.call, recent]
      cases hfind : s.find key with
      | none => rw [Shelf.erase_missing hfind, List.erase_of_not_mem (find_eq_none_iff.1 hfind)]
      | some r =>
          rcases h.split hfind with ⟨A, B, -, -, hkey, -⟩
          rw [Shelf.erase_found hfind, Shelf.keys, Shelf.residents_displace, hkey,
            (keys_others h hfind).2]
  | get key =>
      rw [Shelf.call, recent]
      cases hfind : s.find key with
      | none => rw [Shelf.get_missing hfind, if_neg (find_eq_none_iff.1 hfind)]
      | some r =>
          rcases keys_others h hfind with ⟨hmem, hothers⟩
          rcases h.split hfind with ⟨A, B, -, -, hkey, -⟩
          rw [Shelf.get_found hfind, if_pos hmem, Shelf.keys, List.map_cons, hothers,
            Resident.referenced, hkey]
  | contains key => rfl

theorem recent_length_le {cap : ℕ} {ks : List K} (hlen : ks.length ≤ cap) (c : Call K V) :
    (recent cap ks c).length ≤ cap := by
  cases c with
  | insert key val =>
      rw [recent]
      have hle := List.length_erase_le (a := key) (l := ks)
      split
      · simp only [List.length_dropLast, List.length_cons]
        omega
      · omega
  | erase key => exact List.length_erase_le.trans hlen
  | get key =>
      rw [recent]
      split
      · rename_i hmem
        have hlength := List.length_erase_of_mem hmem
        have hpos := List.length_pos_of_mem hmem
        rw [List.length_cons]
        omega
      · exact hlen
  | contains key => exact hlen

/-- A run of calls on a new shard returns, and leaves it on a shelf with the keys
of the reference list. -/
theorem run_shelved (cap : ℕ) (calls : List (Call K V)) :
    ∃ l s, run call (new cap) calls = .ok l ∧ Shelved l s ∧ l.cap = cap ∧
      s.keys = recency cap calls ∧ s.keys.length ≤ cap := by
  induction calls using List.reverseRecOn with
  | nil => exact ⟨_, _, rfl, new_shelved cap, rfl, rfl, Nat.zero_le _⟩
  | append_singleton calls c ih =>
      rcases ih with ⟨l, s, hrun, hl, rfl, hkeys, hlen⟩
      rcases call_shelved hl c with ⟨l', hcall, hl', hcap⟩
      have hkeys' := call_keys hl hlen c
      refine ⟨l', _, run_concat_ok.2 ⟨l, hrun, hcall⟩, hl', hcap, ?_, ?_⟩
      · rw [hkeys', hkeys, recency, recency, List.foldl_append]
        rfl
      · rw [hkeys']
        exact recent_length_le hlen c

/-- The index has exactly the keys of the residents. -/
theorem Shelved.contains_iff (h : Shelved l s) (key : K) :
    l.contains key = true ↔ key ∈ s.keys := by
  rw [contains, h.index_eq, Option.isSome_map, ← Option.ne_none_iff_isSome, ne_eq,
    find_eq_none_iff, not_not]

theorem Shelved.lists (h : Shelved l s) (hlen : s.keys.length ≤ l.cap) : Lists l s.keys where
  keys := by
    rw [h.linked.nodes_eq, Shelf.keys, List.map_map, List.map_map]
    apply List.map_congr_left
    intro r hr
    simp [h.linked.loads r hr]
  nodup := h.keys_nodup
  index := by
    intro k p
    rw [h.linked.nodes_eq, List.mem_map]
    constructor
    · intro hp
      rcases h.linked.split hp with ⟨A, r, B, hsplit, rfl, rfl⟩
      have hr : r ∈ s.residents := by simp [hsplit]
      exact ⟨⟨r, hr, rfl⟩, by rw [h.linked.loads r hr, Option.map_some]⟩
    · rintro ⟨⟨r, hr, rfl⟩, hkey⟩
      rw [h.linked.loads r hr, Option.map_some] at hkey
      rcases List.append_of_mem hr with ⟨A, B, hsplit⟩
      rw [← Option.some.inj hkey]
      exact h.linked.index_of_split hsplit
  contains := h.contains_iff
  in_cache := by
    intro p hp
    rw [h.linked.nodes_eq, List.mem_map] at hp
    rcases hp with ⟨r, hr, rfl⟩
    rw [h.linked.loads r hr, Option.map_some, h.linked.in_cache r hr]
  length_le := by
    rw [h.linked.nodes_eq, List.length_map]
    simpa [Shelf.keys] using hlen

/-- After any calls on a new shard its keys, front to back, are those of the
reference list; index, flags and size are as they should be. -/
theorem lru_residency (cap : ℕ) (calls : List (Call K V)) :
    ∃ l, run call (new cap) calls = .ok l ∧ l.cap = cap ∧ Lists l (recency cap calls) := by
  rcases run_shelved cap calls with ⟨l, s, hrun, hl, hcap, hkeys, hlen⟩
  refine ⟨l, hrun, hcap, ?_⟩
  rw [← hkeys]
  exact hl.lists (hcap ▸ hlen)

/-! ## Eviction -/

/-- The key of the node that is given up when a new key is inserted. -/
def victim (l : LRU K V) (key : K) : Option K :=
  if l.nodes.length + 1 > l.cap then
    some ((l.nodes.getLast?.bind fun p => (l.heap.load p).map CacheNode.key).getD key)
  else none

/-- It is the last one, once the new key is in front. -/
theorem victim_eq (h : Shelved l s) (key : K) (p : Ptr) (val : V) :
    l.victim key =
      if s.residents.length + 1 > l.cap then
        some ((Resident.made p key val :: s.residents).getLast (List.cons_ne_nil _ _)).node.key
      else none := by
  have hlength : l.nodes.length = s.residents.length := by
    rw [h.linked.nodes_eq, List.length_map]
  rw [victim, hlength]
  rcases List.eq_nil_or_concat s.residents with hnil | ⟨A, last, hconcat⟩
  · have hnodes : l.nodes = [] := by rw [h.linked.nodes_eq, hnil, List.map_nil]
    simp [hnil, hnodes, Resident.made]
  · rw [List.concat_eq_append] at hconcat
    have hlast : l.nodes.getLast? = some last.ptr := by
      rw [h.linked.nodes_eq, hconcat]
      simp
    have hload := h.linked.loads last (by simp [hconcat])
    simp [hconcat, hlast, hload]

theorem mem_keys_displace {r : Resident K V} {k : K} :
    k ∈ (s.displace r).keys ↔ k ∈ s.keys ∧ k ≠ r.node.key := by
  rw [Shelf.keys, Shelf.residents_displace, Shelf.others, Shelf.keys]
  simp only [List.mem_map, List.mem_filter, decide_eq_true_eq]
  constructor
  · rintro ⟨q, ⟨hq, hne⟩, rfl⟩
    exact ⟨⟨q, hq, rfl⟩, hne⟩
  · rintro ⟨⟨q, hq, rfl⟩, hne⟩
    exact ⟨q, ⟨hq, hne⟩, rfl⟩

/-- A key that is there stays through an insertion unless it is the one given up
for a new key. -/
theorem insert_contains_iff (h : Shelved l s) {key k : K} {val : V} {l' : LRU K V}
    (hrun : l.insert key val = .ok l') (hk : l.contains k = true) :
    l'.contains k = true ↔ ¬ (l.index key = none ∧ l.victim key = some k) := by
  rw [h.contains_iff] at hk
  rw [(h.of_insert hrun).contains_iff, victim_eq h key l.heap.fresh val, h.index_eq]
  cases hfind : s.find key with
  | none =>
      by_cases hfull : s.residents.length + 1 > l.cap
      · rw [Shelf.insert_full hfind hfull, mem_keys_displace, if_pos hfull]
        have hpush : k ∈ (s.push (.made l.heap.fresh key val)).keys := List.mem_cons_of_mem _ hk
        simp [hpush, eq_comm]
      · rw [Shelf.insert_room hfind hfull, if_neg hfull]
        exact iff_of_true (List.mem_cons_of_mem _ hk) (by simp)
  | some r =>
      rcases keys_others h hfind with ⟨-, hothers⟩
      rcases h.split hfind with ⟨A, B, -, -, hkey, -⟩
      rw [Shelf.insert_found hfind, Shelf.keys, List.map_cons, hothers, hkey]
      refine iff_of_true ?_ (by simp)
      by_cases hkk : k = key
      · simp [hkk]
      · exact List.mem_cons_of_mem _ ((List.mem_erase_of_ne hkk).2 hk)

/-- `get` gives up nothing. -/
theorem get_contains (h : Shelved l s) {key k : K} {node : Option Ptr} {l' : LRU K V}
    (hrun : l.get key = .ok (l', node)) (hk : l.contains k = true) : l'.contains k = true := by
  rw [h.contains_iff] at hk
  rw [(h.of_get hrun).1.contains_iff]
  cases hfind : s.find key with
  | none => rwa [Shelf.get_missing hfind]
  | some r =>
      rcases keys_others h hfind with ⟨-, hothers⟩
      rcases h.split hfind with ⟨A, B, -, -, hkey, -⟩
      rw [Shelf.get_found hfind, Shelf.keys, List.map_cons, hothers, Resident.referenced, hkey]
      by_cases hkk : k = key
      · simp [hkk]
      · exact List.mem_cons_of_mem _ ((List.mem_erase_of_ne hkk).2 hk)

/-- `get` hands out a node exactly for the keys that are there. -/
theorem get_isSome (h : Shelved l s) {key : K} {node : Option Ptr} {l' : LRU K V}
    (hrun : l.get key = .ok (l', node)) : node.isSome = l.contains key := by
  rw [contains, h.index_eq, (h.of_get hrun).2]

/-! ## Values -/

def record (m : K → Option V) : Call K V → K → Option V
  | .insert key val => Function.update m key (some val)
  | _ => m

/-- The value of the last insertion of a key. -/
def lastInsert (calls : List (Call K V)) : K → Option V := calls.foldl record fun _ => none

/-- What `get` hands out holds the value inserted last. -/
def GetsFresh (calls : List (Call K V)) (l : LRU K V) : Prop :=
  ∀ key l' p, l.get key = .ok (l', some p) →
    ∃ val, l'.valueAt p = .ok val ∧ lastInsert calls key = some val

/-- An insertion finds no other value of its key. -/
def InsertAgrees (l : LRU K V) : Call K V → Prop
  | .insert key val => ∀ p node, l.index key = some p → l.heap.load p = some node → node.val = val
  | _ => True

/-- Every resident has the value that `m` has for its key. -/
def Shelf.Current (s : Shelf K V) (m : K → Option V) : Prop :=
  ∀ r ∈ s.residents, m r.node.key = some r.node.val

theorem find_of_mem (h : Shelved l s) {r : Resident K V} (hr : r ∈ s.residents) :
    s.find r.node.key = some r := by
  rcases List.append_of_mem hr with ⟨A, B, hsplit⟩
  exact find_of_split hsplit h.linked.key_nodup

theorem getsFresh_iff (h : Shelved l s) (calls : List (Call K V)) :
    GetsFresh calls l ↔ s.Current (lastInsert calls) := by
  -- what is handed out is the resident of the key, with its value
  have hval : ∀ {r l'}, r ∈ s.residents → l.get r.node.key = .ok (l', some r.ptr) →
      l'.valueAt r.ptr = .ok r.node.val := by
    intro r l' hr hget
    have hl' := (h.of_get hget).1
    rw [Shelf.get_found (find_of_mem h hr)] at hl'
    have hload := hl'.linked.loads r.referenced (by simp)
    rw [valueAt, show l'.heap.load r.ptr = _ from hload]
    rfl
  constructor
  · intro hfresh r hr
    rcases get_shelved h r.node.key with ⟨l', hrun, -, -⟩
    rw [find_of_mem h hr, Option.map_some] at hrun
    rcases hfresh _ _ _ hrun with ⟨val, hat, hlast⟩
    rw [hval hr hrun] at hat
    rw [hlast, Except.ok.inj hat]
  · intro hcurrent key l' p hget
    have hnode := (h.of_get hget).2
    cases hfind : s.find key with
    | none =>
        rw [hfind, Option.map_none] at hnode
        cases hnode
    | some r =>
        rw [hfind, Option.map_some] at hnode
        cases hnode
        have hr := List.mem_of_find?_eq_some hfind
        rcases h.split hfind with ⟨A, B, -, -, rfl, -⟩
        exact ⟨r.node.val, hval hr hget, hcurrent r hr⟩

theorem lastInsert_concat (calls : List (Call K V)) (c : Call K V) :
    lastInsert (calls ++ [c]) = record (lastInsert calls) c := by
  rw [lastInsert, List.foldl_append]
  rfl

omit [DecidableEq K] in
theorem Shelf.Current.subset {m : K → Option V} (h : s.Current m) {s' : Shelf K V}
    (hsub : s'.residents ⊆ s.residents) : s'.Current m :=
  fun r hr => h r (hsub hr)

theorem residents_displace_subset (s : Shelf K V) (r : Resident K V) :
    (s.displace r).residents ⊆ s.residents := by
  rw [Shelf.residents_displace]
  exact List.filter_subset_self _

/-- A value that is put in for a key that is not there is the current one. -/
theorem Shelf.Current.push {m : K → Option V} (h : s.Current m) {key : K}
    (hkey : key ∉ s.keys) (p : Ptr) (val : V) :
    (s.push (.made p key val)).Current (Function.update m key (some val)) := by
  intro r hr
  rcases List.mem_cons.1 hr with rfl | hr
  · exact Function.update_self _ _ _
  · have hne : r.node.key ≠ key := fun heq => hkey (heq ▸ List.mem_map_of_mem hr)
    rw [Function.update_of_ne hne]
    exact h r hr

/-- An insertion keeps the values current exactly if it finds no other one. -/
theorem insert_current_iff (h : Shelved l s) {m : K → Option V} (hcurrent : s.Current m) (key : K)
    (val : V) :
    (s.insert l.cap l.heap.fresh key val).Current (Function.update m key (some val)) ↔
      InsertAgrees l (.insert key val) := by
  have hindex := h.index_eq key
  cases hfind : s.find key with
  | none =>
      have hpush := hcurrent.push (find_eq_none_iff.1 hfind) l.heap.fresh val
      have hagrees : InsertAgrees l (.insert key val) := by
        intro p node hp
        rw [hindex, hfind] at hp
        cases hp
      refine iff_of_true ?_ hagrees
      by_cases hfull : s.residents.length + 1 > l.cap
      · rw [Shelf.insert_full hfind hfull]
        exact hpush.subset (residents_displace_subset _ _)
      · rw [Shelf.insert_room hfind hfull]
        exact hpush
  | some r =>
      -- the old node stays, with the value it has
      rcases h.split hfind with ⟨A, B, hsplit, hothers, rfl, hp⟩
      have hload : l.heap.load r.ptr = some r.node := h.linked.loads r (by simp [hsplit])
      rw [Shelf.insert_found hfind]
      constructor
      · intro hafter p node hp' hnode
        obtain rfl := Option.some.inj (hp.symm.trans hp')
        obtain rfl := Option.some.inj (hload.symm.trans hnode)
        have hself := hafter r List.mem_cons_self
        rw [Function.update_self] at hself
        exact (Option.some.inj hself).symm
      · intro hagrees q hq
        rcases List.mem_cons.1 hq with rfl | hq
        · rw [Function.update_self, hagrees _ _ hp hload]
        · rw [Shelf.others, List.mem_filter] at hq
          rw [Function.update_of_ne (by simpa using hq.2)]
          exact hcurrent q hq.1

theorem Shelf.Current.erase {m : K → Option V} (h : s.Current m) (key : K) :
    (s.erase key).Current m := by
  cases hfind : s.find key with
  | none =>
      rw [Shelf.erase_missing hfind]
      exact h
  | some r =>
      rw [Shelf.erase_found hfind]
      exact h.subset (residents_displace_subset _ _)

/-- A count more leaves the value as it is. -/
theorem Shelf.Current.get {m : K → Option V} (h : s.Current m) (key : K) :
    (s.get key).Current m := by
  cases hfind : s.find key with
  | none =>
      rw [Shelf.get_missing hfind]
      exact h
  | some r =>
      rw [Shelf.get_found hfind]
      intro q hq
      rcases List.mem_cons.1 hq with rfl | hq
      · exact h r (List.mem_of_find?_eq_some hfind)
      · exact h q (List.mem_of_mem_filter hq)

/-- One call keeps the values current exactly if it inserts no value that it finds
another one for. -/
theorem call_current_iff (h : Shelved l s) {calls : List (Call K V)}
    (hcurrent : s.Current (lastInsert calls)) (c : Call K V) :
    (s.call l.cap l.heap.fresh c).Current (lastInsert (calls ++ [c])) ↔ InsertAgrees l c := by
  rw [lastInsert_concat]
  cases c with
  | insert key val => exact insert_current_iff h hcurrent key val
  | erase key => exact iff_of_true (hcurrent.erase key) trivial
  | get key => exact iff_of_true (hcurrent.get key) trivial
  | contains key => exact iff_of_true hcurrent trivial

/-- All through a run of calls on a new shard `get` hands out the value inserted
last, exactly if no insertion of the run finds another value of its key. -/
theorem lru_fresh_iff (cap : ℕ) (calls : List (Call K V)) :
    ∃ l, run call (new cap) calls = .ok l ∧
      (Always call GetsFresh (new cap) calls ↔ GuardedRun call InsertAgrees (new cap) calls l) := by
  rcases run_shelved cap calls with ⟨l, -, hrun, -⟩
  refine ⟨l, hrun, always_iff_guardedRun ?_ ?_ hrun⟩
  · rw [getsFresh_iff (new_shelved cap)]
    intro r hr
    cases hr
  · intro as l₁ c l₂ _ has hfresh hcall
    rcases run_shelved cap as with ⟨l₁', s, has', hl₁, -⟩
    obtain rfl : l₁ = l₁' := Except.ok.inj (has.symm.trans has')
    rcases call_shelved hl₁ c with ⟨l₂', hcall', hl₂, -⟩
    obtain rfl : l₂ = l₂' := Except.ok.inj (hcall.symm.trans hcall')
    rw [getsFresh_iff hl₁] at hfresh
    rw [getsFresh_iff hl₂]
    exact call_current_iff hl₁ hfresh c

/-- A key that is inserted twice keeps its first value. -/
theorem second_insert_not_fresh :
    ¬ Always call GetsFresh (new 2) [.insert 0 1, .insert (0 : ℕ) (2 : ℕ)] := by
  intro h
  rcases h _ (List.prefix_refl _) _ rfl 0 _ _ rfl with ⟨val, hat, hlast⟩
  have hval : 1 = val := Except.ok.inj hat
  have hlast' : some 2 = some val := hlast
  rw [← hval] at hlast'
  cases hlast'

end LRU

end Smallkv
