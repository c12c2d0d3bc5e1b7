import Smallkv.Cache.Lru

/-!
# Cache.Shelf — every node of a shard

A `Shelf` says where the nodes are that a shard has made: resident, waiting in
the garbage station, lost (on the heap, but known to neither), or destroyed,
and what each operation makes of that. `Shelved l s` ties a shard to its shelf,
and every operation on the shard is simulated by the one on the shelf
(`insert_shelved`, `erase_shelved`, `get_shelved`, `release_shelved`). What is
said about whole runs is then said about lists.
-/

namespace Smallkv

open Fallible Assoc

namespace LRU

variable {K V : Type}

namespace Resident

def cell (r : Resident K V) : Ptr × CacheNode K V := (r.ptr, r.node)

/-- The node that `insert` makes. -/
def made (p : Ptr) (key : K) (val : V) : Resident K V :=
  ⟨p, { key := key, val := val, refCnt := 1, inCache := true }⟩

/-- One reference more. -/
def referenced (r : Resident K V) : Resident K V :=
  ⟨r.ptr, { r.node with refCnt := asInt32 (r.node.refCnt + 1) }⟩

/-- One reference less. -/
def released (r : Resident K V) : Resident K V :=
  ⟨r.ptr, { r.node with refCnt := asInt32 (r.node.refCnt - 1) }⟩

/-- One reference less, and out of the cache. -/
def retired (r : Resident K V) : Resident K V :=
  ⟨r.ptr, { r.node with inCache := false, refCnt := asInt32 (r.node.refCnt - 1) }⟩

end Resident

/-- Where the nodes of a shard are. -/
structure Shelf (K V : Type) where
  residents : List (Resident K V)
  garbage : List (Resident K V)
  lost : List (Resident K V)
  destroyed : List V

namespace Shelf

def empty : Shelf K V := ⟨[], [], [], []⟩

/-- All nodes that are alive. -/
def alive (s : Shelf K V) : List (Resident K V) := s.residents ++ (s.garbage ++ s.lost)

variable [DecidableEq K]

def find (s : Shelf K V) (key : K) : Option (Resident K V) :=
  s.residents.find? fun r => r.node.key = key

/-- The residents with another key. -/
def others (s : Shelf K V) (key : K) : List (Resident K V) :=
  s.residents.filter fun r => r.node.key ≠ key

/-- What waits in the garbage station for another key, and for this one. -/
def waiting (s : Shelf K V) (key : K) : List (Resident K V) :=
  s.garbage.filter fun g => g.node.key ≠ key

def forgotten (s : Shelf K V) (key : K) : List (Resident K V) :=
  s.garbage.filter fun g => g.node.key = key

/-- A resident leaves. The garbage station has one place for a key, so the node
that had it is lost, also when the resident needs no place. -/
def displace (s : Shelf K V) (r : Resident K V) : Shelf K V :=
  if r.retired.node.refCnt ≤ 0 then
    { residents := s.others r.node.key
      garbage := s.waiting r.node.key
      lost := s.forgotten r.node.key ++ s.lost
      destroyed := s.destroyed ++ [r.node.val] }
  else
    { residents := s.others r.node.key
      garbage := r.retired :: s.waiting r.node.key
      lost := s.forgotten r.node.key ++ s.lost
      destroyed := s.destroyed }

/-- A new node in front. -/
def push (s : Shelf K V) (r : Resident K V) : Shelf K V := { s with residents := r :: s.residents }

def insert (s : Shelf K V) (cap : ℕ) (p : Ptr) (key : K) (val : V) : Shelf K V :=
  match s.find key with
  | none =>
    if s.residents.length + 1 > cap then
      (s.push (.made p key val)).displace
        ((Resident.made p key val :: s.residents).getLast (List.cons_ne_nil _ _))
    else s.push (.made p key val)
  | some r =>
    { s with residents := r :: s.others key, lost := .made p key val :: s.lost }

def erase (s : Shelf K V) (key : K) : Shelf K V :=
  match s.find key with
  | none => s
  | some r => s.displace r

def get (s : Shelf K V) (key : K) : Shelf K V :=
  match s.find key with
  | none => s
  | some r => { s with residents := r.referenced :: s.others key }

section Cases

variable {s : Shelf K V} {key : K} {r : Resident K V}

omit [DecidableEq K] in
/-- With a new node in front there is a last one. -/
theorem push_last (s : Shelf K V) (r : Resident K V) :
    (s.push r).residents = (r :: s.residents).dropLast ++
      (r :: s.residents).getLast (List.cons_ne_nil _ _) :: [] :=
  (List.dropLast_append_getLast (List.cons_ne_nil r s.residents)).symm

@[simp] theorem residents_displace (s : Shelf K V) (r : Resident K V) :
    (s.displace r).residents = s.others r.node.key := by
  unfold displace
  split <;> rfl

@[simp] theorem lost_displace (s : Shelf K V) (r : Resident K V) :
    (s.displace r).lost = s.forgotten r.node.key ++ s.lost := by
  unfold displace
  split <;> rfl

theorem insert_found (hfind : s.find key = some r) (cap : ℕ) (p : Ptr) (val : V) :
    s.insert cap p key val =
      { s with residents := r :: s.others key, lost := .made p key val :: s.lost } := by
  simp only [insert, hfind]

theorem insert_full {cap : ℕ} (hfind : s.find key = none) (hfull : s.residents.length + 1 > cap)
    (p : Ptr) (val : V) :
    s.insert cap p key val = (s.push (.made p key val)).displace
      ((Resident.made p key val :: s.residents).getLast (List.cons_ne_nil _ _)) := by
  simp only [insert, hfind, if_pos hfull]

theorem insert_room {cap : ℕ} (hfind : s.find key = none) (hroom : ¬ s.residents.length + 1 > cap)
    (p : Ptr) (val : V) : s.insert cap p key val = s.push (.made p key val) := by
  simp only [insert, hfind, if_neg hroom]

theorem erase_found (hfind : s.find key = some r) : s.erase key = s.displace r := by
  simp only [erase, hfind]

theorem erase_missing (hfind : s.find key = none) : s.erase key = s := by
  simp only [erase, hfind]

theorem get_found (hfind : s.find key = some r) :
    s.get key = { s with residents := r.referenced :: s.others key } := by
  simp only [get, hfind]

theorem get_missing (hfind : s.find key = none) : s.get key = s := by
  simp only [get, hfind]

end Cases

end Shelf

/-- The shard has its nodes where the shelf says. -/
structure Shelved [DecidableEq K] (l : LRU K V) (s : Shelf K V) : Prop where
  linked : Linked l s.residents
  station_eq : l.garbageStation = toMap (s.garbage.map fun g => (g.node.key, g.ptr))
  station_nodup : (s.garbage.map fun g => g.node.key).Nodup
  inventory : Arena.Inventory l.heap (s.alive.map Resident.cell)
  destroyed_eq : l.destroyed = s.destroyed

variable [DecidableEq K] {l l' : LRU K V} {s : Shelf K V} {A B : List (Resident K V)}
  {r : Resident K V} {key : K}

theorem new_shelved (cap : ℕ) : Shelved (new cap : LRU K V) .empty where
  linked := (new_wf cap).linked
  station_eq := rfl
  station_nodup := List.nodup_nil
  inventory := Arena.inventory_empty
  destroyed_eq := rfl

/-! ## Finding a resident -/

theorem find_of_split (hsplit : s.residents = A ++ r :: B)
    (hnodup : (s.residents.map fun q => q.node.key).Nodup) : s.find r.node.key = some r :=
  find?_label hnodup (hsplit ▸ by simp)

theorem others_of_split (hsplit : s.residents = A ++ r :: B)
    (hnodup : (s.residents.map fun q => q.node.key).Nodup) : s.others r.node.key = A ++ B := by
  rw [hsplit] at hnodup
  rcases key_split hnodup with ⟨hA, hB⟩
  have hkeep : ∀ C : List (Resident K V), r.node.key ∉ C.map (fun q => q.node.key) →
      C.filter (fun q => decide (q.node.key ≠ r.node.key)) = C := by
    intro C hC
    rw [List.filter_eq_self]
    intro q hq
    have hne : q.node.key ≠ r.node.key := fun heq => hC (heq ▸ List.mem_map_of_mem hq)
    simpa using hne
  rw [Shelf.others, hsplit, List.filter_append, List.filter_cons_of_neg (by simp), hkeep A hA,
    hkeep B hB]

/-- The index and the shelf know the same keys. -/
theorem Shelved.index_eq (h : Shelved l s) (key : K) :
    l.index key = (s.find key).map Resident.ptr := by
  cases hp : l.index key with
  | none =>
      have habsent := h.linked.absent hp
      have hnone : s.find key = none := by
        rw [Shelf.find, List.find?_eq_none]
        intro q hq heq
        exact habsent (of_decide_eq_true heq ▸ List.mem_map_of_mem hq)
      rw [hnone, Option.map_none]
  | some p =>
      rcases h.linked.split hp with ⟨A, r, B, hsplit, rfl, rfl⟩
      rw [find_of_split hsplit h.linked.key_nodup, Option.map_some]

/-- A key that is found splits the residents. -/
theorem Shelved.split (h : Shelved l s) (hfind : s.find key = some r) :
    ∃ A B, s.residents = A ++ r :: B ∧ s.others key = A ++ B ∧ r.node.key = key ∧
      l.index key = some r.ptr := by
  have hkey : r.node.key = key := by simpa using List.find?_some hfind
  subst hkey
  rcases List.append_of_mem (List.mem_of_find?_eq_some hfind) with ⟨A, B, hsplit⟩
  exact ⟨A, B, hsplit, others_of_split hsplit h.linked.key_nodup, rfl, by
    rw [h.index_eq, hfind, Option.map_some]⟩

/-- The pointer of the index is that of a resident of the key. -/
theorem Shelved.find_of_index (h : Shelved l s) {p : Ptr} (hp : l.index key = some p) :
    ∃ r, s.find key = some r ∧ r.ptr = p := by
  rw [h.index_eq, Option.map_eq_some_iff] at hp
  exact hp

theorem Shelved.load (h : Shelved l s) {r : Resident K V} (hr : r ∈ s.alive) :
    l.heap.load r.ptr = some r.node :=
  (h.inventory.mem_iff r.ptr r.node).1 (List.mem_map_of_mem hr)

/-- What is alive is on the shelf. -/
theorem Shelved.alive_of_load (h : Shelved l s) {p : Ptr} {node : CacheNode K V}
    (hload : l.heap.load p = some node) : ⟨p, node⟩ ∈ s.alive := by
  rcases List.mem_map.1 ((h.inventory.mem_iff p node).2 hload) with ⟨r, hr, heq⟩
  cases heq
  exact hr

/-! ## Leaving the shard -/

/-- The garbage of a key apart from the rest. -/
theorem garbage_perm (s : Shelf K V) (key : K) :
    s.garbage.Perm (s.waiting key ++ s.forgotten key) := by
  have hperm := List.filter_append_perm (fun g : Resident K V => decide (g.node.key ≠ key)) s.garbage
  have hnot : (fun g : Resident K V => !decide (g.node.key ≠ key)) =
      fun g => decide (g.node.key = key) := by
    funext g
    simp
  rw [hnot] at hperm
  exact hperm.symm

theorem key_notMem_waiting (s : Shelf K V) (key : K) :
    key ∉ (s.waiting key).map fun g => g.node.key := by
  simp [Shelf.waiting]

theorem waiting_nodup (hnodup : (s.garbage.map fun g => g.node.key).Nodup) (key : K) :
    ((s.waiting key).map fun g => g.node.key).Nodup :=
  hnodup.sublist (List.filter_sublist.map _)

/-- The station without its place for a key. -/
theorem toMap_waiting (s : Shelf K V) (key : K) :
    toMap ((s.waiting key).map fun g => (g.node.key, g.ptr)) =
      Function.update (toMap (s.garbage.map fun g => (g.node.key, g.ptr))) key none := by
  rw [← toMap_filter_ne, List.filter_map]
  rfl

/-- What `phantom_erase_node` does with a node that the index knows. -/
theorem phantomEraseNode_eq {p : Ptr} {node : CacheNode K V} (hload : l.heap.load p = some node)
    (hindex : l.index node.key = some p) :
    l.phantomEraseNode p =
      .ok (if asInt32 (node.refCnt - 1) ≤ 0 then
        { l with
          heap := (l.heap.store p { node with inCache := false }).free p
          nodes := l.nodes.erase p
          index := Function.update l.index node.key none
          garbageStation := Function.update l.garbageStation node.key none
          destroyed := l.destroyed ++ [node.val] }
      else
        { l with
          heap := (l.heap.store p { node with inCache := false }).store p
            { node with inCache := false, refCnt := asInt32 (node.refCnt - 1) }
          nodes := l.nodes.erase p
          index := Function.update l.index node.key none
          garbageStation := Function.update l.garbageStation node.key (some p) }) := by
  have hload' : (l.heap.store p { node with inCache := false }).load p =
      some { node with inCache := false } := Arena.load_store_self _ hload
  simp only [phantomEraseNode, hload, hindex, orFail_some, ok_bind, unref, hload']
  split
  · simp only [Function.update_idem, pure_eq_ok]
  · rfl

omit [DecidableEq K] in
theorem toFront_perm (hsplit : s.residents = A ++ r :: B) :
    s.alive.Perm (r :: (A ++ B ++ (s.garbage ++ s.lost))) := by
  rw [Shelf.alive, hsplit]
  exact List.perm_middle.append_right _

omit [DecidableEq K] in
/-- A node that is made for a resident key is lost. -/
theorem strand_perm (hsplit : s.residents = A ++ r :: B) (new : Resident K V) :
    (new :: s.alive).Perm (r :: (A ++ B) ++ (s.garbage ++ new :: s.lost)) := by
  have hmiddle : (new :: (r :: (A ++ B) ++ s.garbage ++ s.lost)).Perm
      (r :: (A ++ B) ++ s.garbage ++ new :: s.lost) := List.perm_middle.symm
  simp only [List.append_assoc, List.cons_append] at hmiddle ⊢
  refine ((toFront_perm hsplit).cons new).trans ?_
  simpa only [List.append_assoc] using hmiddle

/-- The same with the garbage of a key apart, as it is when the resident leaves. -/
theorem alive_perm (hsplit : s.residents = A ++ r :: B) (key : K) :
    s.alive.Perm (r :: (A ++ B ++ (s.waiting key ++ (s.forgotten key ++ s.lost)))) := by
  have hgarbage : (s.garbage ++ s.lost).Perm (s.waiting key ++ (s.forgotten key ++ s.lost)) := by
    rw [← List.append_assoc]
    exact (garbage_perm s key).append_right _
  exact (toFront_perm hsplit).trans ((hgarbage.append_left (A ++ B)).cons r)

/-- A resident that leaves the shard leaves the shelf. -/
theorem displace_shelved (h : Shelved l s) (hsplit : s.residents = A ++ r :: B) :
    ∃ l', l.phantomEraseNode r.ptr = .ok l' ∧ Shelved l' (s.displace r) ∧ l'.cap = l.cap := by
  rcases phantomEraseNode_spec h.linked hsplit with ⟨l', hrun, hlinked, hcap⟩
  refine ⟨l', hrun, ?_, hcap⟩
  have hload : l.heap.load r.ptr = some r.node := h.linked.loads r (by simp [hsplit])
  have hothers := others_of_split hsplit h.linked.key_nodup
  -- the heap without the resident
  have hperm := (alive_perm hsplit r.node.key).map Resident.cell
  have hinventory := h.inventory.perm hperm
  rw [List.map_cons] at hinventory
  rw [phantomEraseNode_eq hload (h.linked.index_of_split hsplit)] at hrun
  have hretired : r.retired.node.refCnt = asInt32 (r.node.refCnt - 1) := rfl
  unfold Shelf.displace
  rw [hretired]
  by_cases hcount : asInt32 (r.node.refCnt - 1) ≤ 0
  · rw [if_pos hcount] at hrun
    rw [if_pos hcount]
    cases hrun
    exact
      { linked := hothers ▸ hlinked
        station_eq := by rw [toMap_waiting, ← h.station_eq]
        station_nodup := waiting_nodup h.station_nodup _
        inventory := by
          rw [Shelf.alive, hothers]
          exact (hinventory.store _).free
        destroyed_eq := by rw [h.destroyed_eq] }
  · rw [if_neg hcount] at hrun
    rw [if_neg hcount]
    cases hrun
    exact
      { linked := hothers ▸ hlinked
        station_eq := by
          have hkey : r.retired.node.key = r.node.key := rfl
          funext k
          rw [List.map_cons, toMap_cons, toMap_waiting, ← h.station_eq, hkey]
          by_cases hk : k = r.node.key
          · simp [hk, Resident.retired]
          · simp [hk]
        station_nodup := by
          rw [List.map_cons, List.nodup_cons]
          exact ⟨key_notMem_waiting s r.node.key, waiting_nodup h.station_nodup _⟩
        inventory := by
          rw [Shelf.alive, hothers, List.cons_append]
          have hfront : (Resident.retired r ::
              (A ++ B ++ (s.waiting r.node.key ++ (s.forgotten r.node.key ++ s.lost)))).Perm
              (A ++ B ++ (Resident.retired r ::
                (s.waiting r.node.key ++ (s.forgotten r.node.key ++ s.lost)))) :=
            List.perm_middle.symm
          exact ((hinventory.store _).store _).perm (hfront.map Resident.cell)
        destroyed_eq := h.destroyed_eq }

/-! ## The operations -/

/-- Putting a new node in front. -/
theorem push_shelved (h : Shelved l s) (hfind : s.find key = none) (val : V) :
    Shelved ((l.newNode key val).pushFront key l.heap.fresh)
      (s.push (.made l.heap.fresh key val)) where
  linked := h.linked.pushFront (by rw [h.index_eq, hfind, Option.map_none]) val
  station_eq := h.station_eq
  station_nodup := h.station_nodup
  inventory := h.inventory.alloc _
  destroyed_eq := h.destroyed_eq

theorem insert_shelved (h : Shelved l s) (key : K) (val : V) :
    ∃ l', l.insert key val = .ok l' ∧ Shelved l' (s.insert l.cap l.heap.fresh key val) ∧
      l'.cap = l.cap := by
  have hindex := h.index_eq key
  cases hfind : s.find key with
  | none =>
      have hpush := push_shelved h hfind val
      have hnodes : ((l.newNode key val).pushFront key l.heap.fresh).nodes =
          (Resident.made l.heap.fresh key val :: s.residents).map Resident.ptr :=
        hpush.linked.nodes_eq
      have hcap : ((l.newNode key val).pushFront key l.heap.fresh).cap = l.cap := rfl
      rw [hfind, Option.map_none] at hindex
      by_cases hfull : s.residents.length + 1 > l.cap
      · -- the last node leaves
        rcases displace_shelved hpush (s.push_last _) with ⟨l', hrun, hl', hcap'⟩
        rw [Shelf.insert_full hfind hfull]
        refine ⟨l', ?_, hl', hcap'⟩
        simp only [insert, hindex, hnodes, hcap, List.length_map, List.length_cons, if_pos hfull,
          List.getLast?_map, List.getLast?_eq_some_getLast (List.cons_ne_nil _ _), Option.map_some,
          orFail_some, ok_bind]
        exact hrun
      · rw [Shelf.insert_room hfind hfull]
        refine ⟨(l.newNode key val).pushFront key l.heap.fresh, ?_, hpush, rfl⟩
        simp only [insert, hindex, hnodes, hcap, List.length_map, List.length_cons, if_neg hfull,
          pure_eq_ok]
  | some r =>
      rcases h.split hfind with ⟨A, B, hsplit, hothers, rfl, hp⟩
      rw [Shelf.insert_found hfind]
      refine ⟨(l.newNode r.node.key val).spliceFront r.node.key r.ptr, ?_, ?_, rfl⟩
      · simp [insert, hp]
      · have hnew : Linked (l.newNode r.node.key val) s.residents :=
          h.linked.frame rfl rfl fun q hq =>
            Arena.load_alloc_of_ne _ (Arena.ne_fresh (h.linked.loads q hq))
        exact
          { linked := hothers ▸ hnew.spliceFront hsplit
            station_eq := h.station_eq
            station_nodup := h.station_nodup
            inventory := by
              -- the node that was made is on the heap, and nowhere else
              rw [Shelf.alive, hothers]
              have hperm := strand_perm hsplit (.made l.heap.fresh r.node.key val)
              exact (h.inventory.alloc _).perm (hperm.map Resident.cell)
            destroyed_eq := h.destroyed_eq }

theorem erase_shelved (h : Shelved l s) (key : K) :
    ∃ l', l.erase key = .ok l' ∧ Shelved l' (s.erase key) ∧ l'.cap = l.cap := by
  have hindex := h.index_eq key
  cases hfind : s.find key with
  | none =>
      rw [hfind, Option.map_none] at hindex
      rw [Shelf.erase_missing hfind]
      exact ⟨l, erase_absent hindex, h, rfl⟩
  | some r =>
      rcases h.split hfind with ⟨A, B, hsplit, -, -, hp⟩
      rw [Shelf.erase_found hfind]
      rcases displace_shelved h hsplit with ⟨l', hrun, hl', hcap⟩
      exact ⟨l', by simp only [erase, hp, hrun], hl', hcap⟩

/-- Giving a resident another count keeps the shard linked. -/
theorem Linked.recount (h : Linked l (A ++ r :: B)) (refCnt : ℤ) :
    Linked { l with heap := l.heap.store r.ptr { r.node with refCnt := refCnt } }
      (A ++ ⟨r.ptr, { r.node with refCnt := refCnt }⟩ :: B) where
  nodes_eq := by simpa using h.nodes_eq
  loads := by
    intro q hq
    have hne := h.ptr_ne rfl
    rcases List.mem_append.1 hq with hq | hq
    · exact (Arena.load_store_of_ne _ (hne q (by simp [hq]))).trans (h.loads q (by simp [hq]))
    · rcases List.mem_cons.1 hq with rfl | hq
      · exact Arena.load_store_self _ (h.loads r (by simp))
      · exact (Arena.load_store_of_ne _ (hne q (by simp [hq]))).trans (h.loads q (by simp [hq]))
  ptr_nodup := by simpa using h.ptr_nodup
  key_nodup := by simpa using h.key_nodup
  index_eq := by simpa using h.index_eq
  in_cache := by
    intro q hq
    rcases List.mem_append.1 hq with hq | hq
    · exact h.in_cache q (by simp [hq])
    · rcases List.mem_cons.1 hq with rfl | hq
      · exact h.in_cache r (by simp)
      · exact h.in_cache q (by simp [hq])

theorem get_shelved (h : Shelved l s) (key : K) :
    ∃ l', l.get key = .ok (l', (s.find key).map Resident.ptr) ∧ Shelved l' (s.get key) ∧
      l'.cap = l.cap := by
  have hindex := h.index_eq key
  cases hfind : s.find key with
  | none =>
      rw [hfind, Option.map_none] at hindex
      rw [Shelf.get_missing hfind]
      exact ⟨l, get_absent hindex, h, rfl⟩
  | some r =>
      rcases h.split hfind with ⟨A, B, hsplit, hothers, rfl, hp⟩
      rw [Shelf.get_found hfind]
      have hload : l.heap.load r.ptr = some r.node := h.linked.loads r (by simp [hsplit])
      have hfront := h.linked.spliceFront hsplit
      refine ⟨{ l.spliceFront r.node.key r.ptr with
        heap := l.heap.store r.ptr r.referenced.node }, ?_, ?_, rfl⟩
      · have hload' : (l.spliceFront r.node.key r.ptr).heap.load r.ptr = some r.node := hload
        simp only [get, hp, ref, hload', orFail_some, ok_bind, pure_eq_ok, Option.map_some]
        rfl
      · exact
          { linked := by
              rw [hothers]
              exact Linked.recount (A := []) hfront _
            station_eq := h.station_eq
            station_nodup := h.station_nodup
            inventory := by
              have hheap := h.inventory.perm ((toFront_perm hsplit).map Resident.cell)
              rw [Shelf.alive, hothers]
              exact hheap.store _
            destroyed_eq := h.destroyed_eq }

/-! ## Behind a call that returned -/

theorem Shelved.of_insert (h : Shelved l s) {val : V} (hrun : l.insert key val = .ok l') :
    Shelved l' (s.insert l.cap l.heap.fresh key val) := by
  rcases insert_shelved h key val with ⟨l₁, hrun₁, hl₁, -⟩
  obtain rfl : l₁ = l' := Except.ok.inj (hrun₁.symm.trans hrun)
  exact hl₁

theorem Shelved.of_erase (h : Shelved l s) (hrun : l.erase key = .ok l') :
    Shelved l' (s.erase key) := by
  rcases erase_shelved h key with ⟨l₁, hrun₁, hl₁, -⟩
  obtain rfl : l₁ = l' := Except.ok.inj (hrun₁.symm.trans hrun)
  exact hl₁

theorem Shelved.of_get (h : Shelved l s) {node : Option Ptr} (hrun : l.get key = .ok (l', node)) :
    Shelved l' (s.get key) ∧ node = (s.find key).map Resident.ptr := by
  rcases get_shelved h key with ⟨l₁, hrun₁, hl₁, -⟩
  have heq := Except.ok.inj (hrun₁.symm.trans hrun)
  obtain rfl : l₁ = l' := congrArg Prod.fst heq
  exact ⟨hl₁, (congrArg Prod.snd heq).symm⟩

end LRU

end Smallkv
