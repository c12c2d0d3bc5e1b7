import Smallkv.MemTable.Relink

/-!
# MemTable.OrderedMap — the skip list refines a finite ordered map

`Wf s ts` is the representation invariant: the heap of `s` holds the chain `ts`
behind the head, sorted by key, no tower taller than the list. Each operation
has one specification over it (`contains_spec`, `get_spec`, `insert_spec`,
`delete_spec`, `entries_spec`), and runs of operations answer as a map from
keys to values does, whatever towers are drawn.
-/

namespace Smallkv

open Fallible Assoc

namespace SkipList

open Tower

/-! ## The drawn level -/

theorem randomLevelLoop_bounds (flips : List Bool) {level : ℕ} (hlow : 1 ≤ level)
    (hhigh : level ≤ kMaxHeight) :
    1 ≤ randomLevelLoop level flips ∧ randomLevelLoop level flips ≤ kMaxHeight := by
  induction flips generalizing level with
  | nil => exact ⟨hlow, hhigh⟩
  | cons flip flips ih =>
      unfold randomLevelLoop
      split
      · rename_i hup
        have hlt : level < kMaxHeight := by
          simp only [Bool.and_eq_true, decide_eq_true_eq] at hup
          exact hup.1
        exact ih (by omega) hlt
      · exact ⟨hlow, hhigh⟩

theorem randomLevel_bounds (flips : List Bool) :
    1 ≤ randomLevel flips ∧ randomLevel flips ≤ kMaxHeight :=
  randomLevelLoop_bounds flips (Nat.le_refl 1) (by decide)

/-- Every level from 1 to the maximum is drawn by some flips. -/
theorem exists_flips {level : ℕ} (hlow : 1 ≤ level) (hhigh : level ≤ kMaxHeight) :
    ∃ flips, randomLevel flips = level := by
  have hloop : ∀ n start, start + n ≤ kMaxHeight →
      randomLevelLoop start (List.replicate n true) = start + n := by
    intro n
    induction n with
    | zero => simp [randomLevelLoop]
    | succ n ih =>
        intro start hle
        have hlt : start < kMaxHeight := by omega
        simp only [List.replicate_succ, randomLevelLoop, hlt, decide_true, Bool.and_self, if_true]
        rw [ih (start + 1) (by omega)]
        omega
  exact ⟨List.replicate (level - 1) true, by
    rw [randomLevel, hloop _ _ (by omega)]
    omega⟩

variable {Key Value : Type}

section

variable [LinearOrder Key]

/-! ## Splitting a chain at a key -/

theorem Sorted.split {ts : List (Tower Key Value)} (hs : Sorted ts) (key : Key) :
    ∃ A B, ts = A ++ B ∧ (∀ t ∈ A, t.key < key) ∧ (∀ t ∈ B, key ≤ t.key) := by
  induction ts with
  | nil => exact ⟨[], [], rfl, by simp, by simp⟩
  | cons t ts ih =>
      rcases List.pairwise_cons.1 hs with ⟨hhead, htail⟩
      rcases lt_or_ge t.key key with hlt | hge
      · rcases ih htail with ⟨A, B, rfl, hA, hB⟩
        refine ⟨t :: A, B, rfl, ?_, hB⟩
        intro u hu
        rcases List.mem_cons.1 hu with rfl | hu
        · exact hlt
        · exact hA u hu
      · refine ⟨[], t :: ts, rfl, by simp, ?_⟩
        intro u hu
        rcases List.mem_cons.1 hu with rfl | hu
        · exact hge
        · exact hge.trans (hhead u hu).le

/-- The map a chain stands for. -/
def mapOf (ts : List (Tower Key Value)) : Key → Option Value := toMap (ts.map entry)

/-- Only the part of the chain that is not below the key can hold it. -/
theorem mapOf_split {A B : List (Tower Key Value)} {key : Key} (hA : ∀ t ∈ A, t.key < key) :
    mapOf (A ++ B) key = toMap (B.map entry) key := by
  have hnone : toMap (A.map entry) key = none := lookup_eq_none fun u hu => ne_of_lt (hA u hu)
  rw [mapOf, List.map_append, toMap_append, hnone, Option.none_or]

/-- A key that is present is at the first tower that is not below it. -/
theorem Sorted.split_at {A B : List (Tower Key Value)} {key : Key} {v : Value}
    (hs : Sorted (A ++ B)) (hA : ∀ t ∈ A, t.key < key) (hB : ∀ t ∈ B, key ≤ t.key)
    (hkey : mapOf (A ++ B) key = some v) : ∃ u C, B = u :: C ∧ u.key = key := by
  rw [mapOf_split hA] at hkey
  cases B with
  | nil => simp at hkey
  | cons u C =>
      refine ⟨u, C, rfl, ?_⟩
      by_contra hne
      have hlt : key < u.key := lt_of_le_of_ne (hB u (by simp)) (Ne.symm hne)
      have hsorted : Sorted (u :: C) := (List.pairwise_append.1 hs).2.1
      have hgt := hsorted.head_lt rfl hlt
      rw [lookup_eq_none fun t ht => (hgt t ht).ne'] at hkey
      exact absurd hkey (by simp)

/-- A sorted chain holds a key once, so without its tower the key is gone. -/
theorem mapOf_drop {A B : List (Tower Key Value)} {u : Tower Key Value}
    (hs : Sorted (A ++ u :: B)) :
    mapOf (A ++ B) = Function.update (mapOf (A ++ u :: B)) u.key none := by
  have hnodup := hs.nodup_keys
  simp only [List.map_append, List.map_cons, List.nodup_append, List.nodup_cons] at hnodup
  simp only [mapOf, List.map_append, List.map_cons]
  refine toMap_remove u.value ?_ hnodup.2.1.1
  intro hmem
  exact hnodup.2.2 _ hmem _ (by simp [entry]) rfl

end

theorem collect_spec (it : SkipListIterator Key Value) {us : List (Tower Key Value)}
    (hchain : Chain it.list.heap us) (htall : ∀ t ∈ us, 1 ≤ t.height)
    (hnode : it.node = us.head?.map Tower.ptr) {fuel : ℕ} (hfuel : us.length ≤ fuel) :
    it.collect fuel = .ok (us.map entry) := by
  induction us generalizing it fuel with
  | nil =>
      have hvalid : it.valid = false := by simp [SkipListIterator.valid, hnode]
      cases fuel with
      | zero => simp [SkipListIterator.collect, hvalid]
      | succ fuel => simp [SkipListIterator.collect, hvalid]
  | cons t us ih =>
      obtain ⟨fuel, rfl⟩ : ∃ n, fuel = n + 1 := ⟨fuel - 1, by simp at hfuel; omega⟩
      have hnode' : it.node = some t.ptr := hnode
      have hnext : it.next = .ok { it with node := us.head?.map Tower.ptr } := by
        have hat := hchain.nextAt_eq (htall t (by simp))
        rw [firstTall_zero fun w hw => htall w (by simp [hw])] at hat
        simp [SkipListIterator.next, hnode', hat]
      have hrest := ih { it with node := us.head?.map Tower.ptr } hchain.2
        (fun w hw => htall w (by simp [hw])) rfl (by simpa using hfuel)
      simp [SkipListIterator.collect, SkipListIterator.valid, SkipListIterator.key,
        SkipListIterator.value, hnode', hchain.1, hnext, hrest, entry]

/-! ## The representation invariant -/

variable [Inhabited Key] [Inhabited Value]

/-- The head as a tower; its key and value are never looked at. -/
def headTower (s : SkipList Key Value) : Tower Key Value where
  ptr := s.head
  key := default
  value := default
  height := kMaxHeight

theorem new_chain : Chain (new : SkipList Key Value).heap [(new : SkipList Key Value).headTower] := by
  refine ⟨?_, trivial⟩
  rw [headTower, new, Arena.load_alloc_fresh]
  simp [Tower.node, newNode, firstTall, List.map_const']

variable [LinearOrder Key] [HasSize Key] [HasSize Value]

/-- What a pair adds to `mem_usage`. -/
def towerBytes (t : Tower Key Value) : ℤ := (HasSize.size t.key : ℤ) + HasSize.size t.value

structure Wf (s : SkipList Key Value) (ts : List (Tower Key Value)) : Prop where
  chain : Chain s.heap (s.headTower :: ts)
  nodup : ((s.headTower :: ts).map Tower.ptr).Nodup
  sorted : Sorted ts
  height_pos : ∀ t ∈ ts, 1 ≤ t.height
  height_le : ∀ t ∈ ts, t.height ≤ s.maxLevel
  level_pos : 1 ≤ s.maxLevel
  level_le : s.maxLevel ≤ kMaxHeight
  size_eq : s.size = ts.length
  memUsage_eq : s.memUsage = (ts.map towerBytes).sum

section Operations

variable {s : SkipList Key Value} {ts : List (Tower Key Value)}

/-! ## The empty list -/

theorem new_wf : Wf (new : SkipList Key Value) [] where
  chain := new_chain
  nodup := by simp
  sorted := List.Pairwise.nil
  height_pos := by simp
  height_le := by simp
  level_pos := Nat.le_refl 1
  level_le := by simp [new, kMaxHeight]
  size_eq := rfl
  memUsage_eq := rfl

/-! ## Reading -/

/-- Fuel, level and the vector of predecessors with which the walks start are
enough. -/
theorem Wf.walk_start (hwf : Wf s ts) {A B : List (Tower Key Value)} (hts : ts = A ++ B) :
    s.getCurrentHeight - 1 < s.headTower.height ∧
      s.getCurrentHeight - 1 + A.length < s.walkBound ∧
      s.getCurrentHeight - 1 < (List.replicate kMaxHeight (none : Option Ptr)).length := by
  have hlive := Arena.length_le_fresh hwf.nodup fun p hp => by
    rcases List.mem_map.1 hp with ⟨t, ht, rfl⟩
    exact hwf.chain.live t ht
  have hpos := hwf.level_pos
  have hle := hwf.level_le
  simp only [hts, List.length_map, List.length_cons, List.length_append] at hlive
  simp only [getCurrentHeight, headTower, walkBound, List.length_replicate]
  omega

theorem Wf.search (hwf : Wf s ts) (key : Key) :
    ∃ found, searchLoop s.heap key s.walkBound s.head (s.getCurrentHeight - 1) = .ok found ∧
      found.map Node.value = mapOf ts key := by
  rcases hwf.sorted.split key with ⟨A, B, rfl, hA, hB⟩
  rcases hwf.walk_start rfl with ⟨hlevel, hfuel, -⟩
  have hsortedB : Sorted B := (List.pairwise_append.1 hwf.sorted).2.1
  obtain ⟨found, hrun, hfound⟩ := searchLoop_spec hwf.chain hA hB hsortedB
    (fun u hu => hwf.height_pos u (by simp [hu])) hlevel hfuel
  exact ⟨found, hrun, by rw [hfound, mapOf_split hA]⟩

theorem get_spec (hwf : Wf s ts) (key : Key) : s.get key = .ok (mapOf ts key) := by
  rcases hwf.search key with ⟨found, hrun, hfound⟩
  simp [get, hrun, hfound]

theorem contains_spec (hwf : Wf s ts) (key : Key) :
    s.contains key = .ok (mapOf ts key).isSome := by
  rcases hwf.search key with ⟨found, hrun, hfound⟩
  simp [contains, hrun, ← hfound]

/-! ## Insertion -/

theorem insert_present (hwf : Wf s ts) {key : Key} {v : Value} (hkey : mapOf ts key = some v)
    (flips : List Bool) (value : Value) : s.insert flips key value = .ok s := by
  simp [insert, contains_spec hwf, hkey]

/-- The predecessors that `FindPrevNode` hands to `Insert`. -/
theorem Wf.findPrevNode_ok (hwf : Wf s ts) {key : Key} {A B : List (Tower Key Value)}
    (hts : ts = A ++ B) (hA : ∀ t ∈ A, t.key < key) (hB : ∀ t ∈ B, key ≤ t.key) :
    ∃ prev, s.findPrevNode key (List.replicate kMaxHeight none) = .ok prev ∧
      ∀ i < kMaxHeight, prev[i]? = some (some (lastTall i s.headTower A).ptr) ∨
        prev[i]? = some none ∧ firstTall i ts = none := by
  rcases hwf.walk_start hts with ⟨hlevel, hfuel, hlen⟩
  have hpos := hwf.level_pos
  rcases findPrevLoop_spec (hts ▸ hwf.chain) hA hB hlevel hfuel hlen with
    ⟨prev, hrun, hrec⟩
  refine ⟨prev, hrun, ?_⟩
  intro i hi
  rcases Nat.lt_or_ge i s.maxLevel with hlt | hge
  · refine Or.inl (hrec.low i ?_ trivial)
    simp only [getCurrentHeight]
    omega
  · -- no tower of the list reaches this level
    refine Or.inr ⟨?_, ?_⟩
    · rw [hrec.high i (by simp only [getCurrentHeight]; omega)]
      simp [hi]
    · rw [firstTall, List.find?_eq_none]
      intro t ht
      have := hwf.height_le t ht
      simp only [decide_eq_true_eq]
      omega

/-- Adding a tower at a fresh address keeps the invariant. -/
theorem Wf.add {A B : List (Tower Key Value)} {v : Tower Key Value} (hwf : Wf s (A ++ B))
    {heap : Arena (Node Key Value)} (hchain : Chain heap (s.headTower :: (A ++ v :: B)))
    (hfresh : ∀ t ∈ s.headTower :: (A ++ B), t.ptr ≠ v.ptr)
    (hA : ∀ t ∈ A, t.key < v.key) (hB : ∀ t ∈ B, v.key < t.key)
    (hlow : 1 ≤ v.height) (hhigh : v.height ≤ kMaxHeight) :
    Wf { s with
          heap := heap
          maxLevel := max v.height s.maxLevel
          size := s.size + 1
          memUsage := s.memUsage + HasSize.size v.key + HasSize.size v.value } (A ++ v :: B) where
  chain := hchain
  nodup := by
    have hperm : ((s.headTower :: (A ++ v :: B)).map Tower.ptr).Perm
        (v.ptr :: (s.headTower :: (A ++ B)).map Tower.ptr) := by
      have hmid : (s.headTower :: A ++ v :: B).Perm (v :: (s.headTower :: A ++ B)) :=
        List.perm_middle
      simpa using hmid.map Tower.ptr
    refine hperm.nodup_iff.2 (List.nodup_cons.2 ⟨?_, hwf.nodup⟩)
    rw [List.mem_map]
    rintro ⟨t, ht, heq⟩
    exact hfresh t ht heq
  sorted := by
    rcases List.pairwise_append.1 hwf.sorted with ⟨hsA, hsB, hAB⟩
    refine List.pairwise_append.2 ⟨hsA, List.pairwise_cons.2 ⟨hB, hsB⟩, ?_⟩
    intro t ht u hu
    rcases List.mem_cons.1 hu with rfl | hu
    · exact hA t ht
    · exact hAB t ht u hu
  height_pos := by
    intro t ht
    rcases (by simpa using ht : t ∈ A ∨ t = v ∨ t ∈ B) with h | rfl | h
    · exact hwf.height_pos t (by simp [h])
    · exact hlow
    · exact hwf.height_pos t (by simp [h])
  height_le := by
    intro t ht
    rcases (by simpa using ht : t ∈ A ∨ t = v ∨ t ∈ B) with h | rfl | h
    · exact (hwf.height_le t (by simp [h])).trans (le_max_right _ _)
    · exact le_max_left _ _
    · exact (hwf.height_le t (by simp [h])).trans (le_max_right _ _)
  level_pos := hwf.level_pos.trans (le_max_right _ _)
  level_le := max_le hhigh hwf.level_le
  size_eq := by
    have hsize := hwf.size_eq
    simp only [List.length_append, List.length_cons] at hsize ⊢
    push_cast at hsize ⊢
    omega
  memUsage_eq := by
    have husage := hwf.memUsage_eq
    simp only [List.map_append, List.map_cons, List.sum_append, List.sum_cons] at husage ⊢
    rw [husage, towerBytes]
    ring

theorem insert_absent (hwf : Wf s ts) {key : Key} (hkey : mapOf ts key = none)
    (flips : List Bool) (value : Value) :
    ∃ s' ts', s.insert flips key value = .ok s' ∧ Wf s' ts' ∧
      mapOf ts' = Function.update (mapOf ts) key (some value) := by
  rcases hwf.sorted.split key with ⟨A, B, hts, hA, hB⟩
  rcases hwf.findPrevNode_ok hts hA hB with ⟨prev, hprev, hpred⟩
  rcases randomLevel_bounds flips with ⟨hlow, hhigh⟩
  let v : Tower Key Value := ⟨s.heap.fresh, key, value, randomLevel flips⟩
  -- the key is absent, so what is not below it is above it
  have hnotMem : key ∉ (ts.map entry).map Prod.fst := toMap_eq_none_iff.1 hkey
  have hBlt : ∀ t ∈ B, key < t.key := by
    intro t ht
    refine lt_of_le_of_ne (hB t ht) ?_
    intro heq
    apply hnotMem
    simp only [List.map_map, List.mem_map]
    exact ⟨t, by simp [hts, ht], heq.symm⟩
  subst hts
  -- the heap with the new node, before it is linked
  have hfresh : ∀ t ∈ s.headTower :: (A ++ B), t.ptr ≠ v.ptr := by
    intro t ht
    rcases hwf.chain.live t ht with ⟨n, hn⟩
    exact Arena.ne_fresh hn
  have hchain₁ : Chain (s.heap.alloc (newNode key v.height value)) (s.headTower :: (A ++ B)) :=
    hwf.chain.frame fun t ht => Arena.load_alloc_of_ne _ (hfresh t ht)
  have hnew : (s.heap.alloc (newNode key v.height value)).load v.ptr =
      some (newNode v.key v.height v.value) := Arena.load_alloc_fresh _ _
  -- after `j` iterations the levels below `j` are linked
  obtain ⟨heap, hrun, hpatch⟩ :
      ∃ heap, run (linkLevel s.head s.heap.fresh prev)
          (s.heap.alloc (newNode key (randomLevel flips) value))
          (List.range (randomLevel flips)) = .ok heap ∧
        Patched (s.heap.alloc (newNode key v.height value)) heap
          (linkPatch s.headTower v A B v.height) :=
    run_range
      (fun j h => Patched (s.heap.alloc (newNode key v.height value)) h
        (linkPatch s.headTower v A B j)) v.height
      ((Patched.refl _).congr fun q i => by simp [linkPatch])
      (fun j h hj hp => linkLevel_ok hchain₁ hnew hfresh (Nat.lt_of_lt_of_le hj hhigh) hj
        (hpred j (Nat.lt_of_lt_of_le hj hhigh)) hp)
  have hchain := linkPatch_chain hchain₁ hnew hfresh hwf.nodup hpatch
  refine ⟨_, A ++ v :: B, ?_, hwf.add hchain hfresh hA hBlt hlow hhigh, ?_⟩
  · simp [insert, contains_spec hwf, hkey, hprev, hrun, v]
  · have hAnot : key ∉ (A.map entry).map Prod.fst := by
      simp only [List.map_append, List.mem_append, not_or] at hnotMem
      exact hnotMem.1
    simp only [mapOf, List.map_append, List.map_cons]
    exact toMap_insert value hAnot

/-! ## Deletion -/

theorem delete_absent (hwf : Wf s ts) {key : Key} (hkey : mapOf ts key = none) :
    s.delete key = .ok s := by
  simp [delete, contains_spec hwf, hkey]

/-- Taking a tower out keeps the invariant. -/
theorem Wf.drop {A B : List (Tower Key Value)} {u : Tower Key Value} (hwf : Wf s (A ++ u :: B))
    {heap : Arena (Node Key Value)} (hchain : Chain heap (s.headTower :: (A ++ B))) :
    Wf { s with
          heap := heap
          size := s.size - 1
          memUsage := s.memUsage - HasSize.size u.key - HasSize.size u.value } (A ++ B) where
  chain := hchain
  nodup := by
    refine hwf.nodup.sublist ?_
    exact (((List.sublist_cons_self u B).append_left A).cons_cons s.headTower).map Tower.ptr
  sorted := hwf.sorted.sublist ((List.sublist_cons_self u B).append_left A)
  height_pos := by
    intro t ht
    exact hwf.height_pos t (((List.sublist_cons_self u B).append_left A).subset ht)
  height_le := by
    intro t ht
    exact hwf.height_le t (((List.sublist_cons_self u B).append_left A).subset ht)
  level_pos := hwf.level_pos
  level_le := hwf.level_le
  size_eq := by
    have hsize := hwf.size_eq
    simp only [List.length_append, List.length_cons] at hsize ⊢
    push_cast at hsize ⊢
    omega
  memUsage_eq := by
    have husage := hwf.memUsage_eq
    simp only [List.map_append, List.map_cons, List.sum_append, List.sum_cons] at husage ⊢
    rw [husage, towerBytes]
    ring

/-- What the loop of `Delete` finds out about a tower of the list: how high it is,
and what comes before it on each of its levels. -/
theorem Wf.deleteLoop_ok {A B : List (Tower Key Value)} {u : Tower Key Value}
    (hwf : Wf s (A ++ u :: B)) :
    ∃ prev, deleteLoop s.heap u.key s.walkBound s.head (s.getCurrentHeight - 1)
        (List.replicate kMaxHeight none) (-1) = .ok (prev, (u.height : ℤ)) ∧
      ∀ i < u.height, prev[i]? = some (some (lastTall i s.headTower A).ptr) := by
  rcases List.pairwise_append.1 hwf.sorted with ⟨-, hsB, hAB⟩
  have hA : ∀ t ∈ A, t.key < u.key := fun t ht => hAB t ht u List.mem_cons_self
  have hC : ∀ t ∈ u :: B, u.key ≤ t.key := by
    intro t ht
    rcases List.mem_cons.1 ht with rfl | ht
    · exact le_refl _
    · exact ((List.pairwise_cons.1 hsB).1 t ht).le
  have hupos : 1 ≤ u.height := hwf.height_pos u (by simp)
  have hule : u.height ≤ s.maxLevel := hwf.height_le u (by simp)
  rcases hwf.walk_start rfl with ⟨hlevel, hfuel, hlen⟩
  rcases deleteLoop_spec rfl rfl hupos hwf.chain hA hC (-1) hlevel hfuel hlen with
    ⟨prev, hprev, hrec⟩
  refine ⟨prev, hprev, ?_⟩
  intro i hi
  refine hrec.low i ?_ hi
  simp only [getCurrentHeight]
  omega

/-- The predecessor at a level points behind the part of the list that it ends. -/
theorem Wf.nextAt_pred {A B : List (Tower Key Value)} (hwf : Wf s (A ++ B)) {i : ℕ}
    (hi : i < kMaxHeight) :
    nextAt s.heap (lastTall i s.headTower A).ptr i = .ok ((firstTall i B).map Tower.ptr) := by
  rcases hwf.chain.next_lastTall hi with ⟨n, hload, -, hget⟩
  simp [nextAt, hload, hget]

theorem Wf.load_at {A B : List (Tower Key Value)} {u : Tower Key Value}
    (hwf : Wf s (A ++ u :: B)) : s.heap.load u.ptr = some (u.node B) := by
  have hchain := hwf.chain
  rw [← List.cons_append] at hchain
  exact hchain.load

/-- `Delete` takes the tower with the key out of the list. -/
theorem delete_at {A B : List (Tower Key Value)} {u : Tower Key Value}
    (hwf : Wf s (A ++ u :: B)) :
    ∃ s', s.delete u.key = .ok s' ∧ Wf s' (A ++ B) ∧ s'.head = s.head := by
  have hupos : 1 ≤ u.height := hwf.height_pos u (by simp)
  have hule : u.height ≤ s.maxLevel := hwf.height_le u (by simp)
  have hmax := hule.trans hwf.level_le
  have hkey : mapOf (A ++ u :: B) u.key = some u.value := hwf.sorted.lookup_mem (by simp)
  rcases hwf.deleteLoop_ok with ⟨prev, hprev, hpred⟩
  -- the first tower behind `prev[0]` is the target
  have hnext := hwf.nextAt_pred (Nat.lt_of_lt_of_le hupos hmax)
  have hfirst : firstTall 0 (u :: B) = some u := by
    simp [firstTall, Nat.lt_of_lt_of_le Nat.zero_lt_one hupos]
  rw [hfirst, Option.map_some] at hnext
  -- after `j` iterations the levels below `j` are unlinked
  obtain ⟨heap, hrun, hpatch⟩ :
      ∃ heap, run (unlinkLevel prev) s.heap (List.range u.height) = .ok heap ∧
        Patched s.heap heap (unlinkPatch s.headTower A B u.height) :=
    run_range (fun j h => Patched s.heap h (unlinkPatch s.headTower A B j)) u.height
      ((Patched.refl _).congr fun q i => by simp [unlinkPatch])
      (fun j h hj hp => unlinkLevel_ok hwf.chain
        (Nat.lt_of_lt_of_le hj hmax) hj (hpred j hj) hp)
  refine ⟨_, ?_, hwf.drop (unlinkPatch_chain hwf.chain hwf.nodup hpatch), rfl⟩
  simp [delete, contains_spec hwf, hkey, hprev, hpred 0 hupos, hnext, hwf.load_at, hrun]

theorem delete_present (hwf : Wf s ts) {key : Key} {v : Value} (hkey : mapOf ts key = some v) :
    ∃ s' ts', s.delete key = .ok s' ∧ Wf s' ts' ∧
      mapOf ts' = Function.update (mapOf ts) key none := by
  rcases hwf.sorted.split key with ⟨A, C, rfl, hA, hC⟩
  rcases hwf.sorted.split_at hA hC hkey with ⟨u, B, rfl, rfl⟩
  rcases delete_at hwf with ⟨s', hrun, hwf', -⟩
  exact ⟨s', A ++ B, hrun, hwf', mapOf_drop hwf.sorted⟩

/-! ## Iteration -/

theorem entries_spec (hwf : Wf s ts) : s.entries = .ok (ts.map entry) := by
  have hlive := Arena.length_le_fresh hwf.nodup fun p hp => by
    rcases List.mem_map.1 hp with ⟨t, ht, rfl⟩
    exact hwf.chain.live t ht
  have hfirst := hwf.chain.nextAt_eq (show 0 < s.headTower.height from Nat.zero_lt_succ 11)
  rw [firstTall_zero hwf.height_pos] at hfirst
  have hall : SkipListIterator.collect s.heap.fresh
      { list := s, node := ts.head?.map Tower.ptr } = .ok (ts.map entry) :=
    collect_spec _ hwf.chain.2 hwf.height_pos rfl (by simp at hlive; omega)
  have hfirst' : nextAt s.heap s.head 0 = .ok (ts.head?.map Tower.ptr) := hfirst
  simp [SkipList.entries, SkipListIterator.moveToFirst, hfirst', hall]

end Operations

/-! ## The list as a map -/

/-- `s` is a well-formed list that holds the pairs of `m`. -/
def Represents (s : SkipList Key Value) (m : Key → Option Value) : Prop :=
  ∃ ts, Wf s ts ∧ mapOf ts = m

section Map

variable {s : SkipList Key Value} {m : Key → Option Value}

theorem new_represents : Represents (new : SkipList Key Value) fun _ => none :=
  ⟨[], new_wf, rfl⟩

theorem Represents.get (h : Represents s m) (key : Key) : s.get key = .ok (m key) := by
  rcases h with ⟨ts, hwf, rfl⟩
  exact get_spec hwf key

theorem Represents.contains (h : Represents s m) (key : Key) :
    s.contains key = .ok (m key).isSome := by
  rcases h with ⟨ts, hwf, rfl⟩
  exact contains_spec hwf key

theorem Represents.insert (h : Represents s m) (flips : List Bool) (key : Key) (value : Value) :
    ∃ s', s.insert flips key value = .ok s' ∧ Represents s' (insertMap m key value) := by
  rcases h with ⟨ts, hwf, rfl⟩
  cases hkey : mapOf ts key with
  | none =>
      rcases insert_absent hwf hkey flips value with ⟨s', ts', hrun, hwf', hmap⟩
      exact ⟨s', hrun, ts', hwf', by rw [hmap, insertMap, hkey, Option.none_or]⟩
  | some v =>
      refine ⟨s, insert_present hwf hkey flips value, ts, hwf, ?_⟩
      rw [insertMap, hkey, Option.some_or, ← hkey, Function.update_eq_self]

theorem Represents.delete (h : Represents s m) (key : Key) :
    ∃ s', s.delete key = .ok s' ∧ Represents s' (Function.update m key none) := by
  rcases h with ⟨ts, hwf, rfl⟩
  cases hkey : mapOf ts key with
  | none =>
      refine ⟨s, delete_absent hwf hkey, ts, hwf, ?_⟩
      rw [← hkey, Function.update_eq_self]
  | some v =>
      rcases delete_present hwf hkey with ⟨s', ts', hrun, hwf', hmap⟩
      exact ⟨s', hrun, ts', hwf', hmap⟩

/-- Iteration yields the pairs of the map in key order, each once. -/
theorem Represents.entries (h : Represents s m) :
    ∃ l, s.entries = .ok l ∧ l.Pairwise (fun a b => a.1 < b.1) ∧ toMap l = m ∧
      s.size = l.length ∧ s.memUsage = (l.map fun e =>
        (HasSize.size e.1 + HasSize.size e.2 : ℤ)).sum := by
  rcases h with ⟨ts, hwf, rfl⟩
  refine ⟨ts.map entry, entries_spec hwf, ?_, rfl, ?_, ?_⟩
  · rw [List.pairwise_map]
    exact hwf.sorted
  · rw [hwf.size_eq, List.length_map]
  · rw [hwf.memUsage_eq, List.map_map]
    rfl

end Map

/-! ## Runs -/

/-- A call on a skip list; an insertion comes with the coin flips it sees. -/
inductive Op (Key Value : Type) where
  | insert (flips : List Bool) (key : Key) (value : Value)
  | delete (key : Key)
  | contains (key : Key)
  | get (key : Key)

inductive Answer (Value : Type) where
  | done
  | contained (answer : Bool)
  | found (answer : Option Value)
deriving DecidableEq

/-- One call, with the answers given so far. -/
def step : SkipList Key Value × List (Answer Value) → Op Key Value →
    Exec (SkipList Key Value × List (Answer Value))
  | (s, log), .insert flips key value => do
    let s ← s.insert flips key value
    pure (s, log ++ [.done])
  | (s, log), .delete key => do
    let s ← s.delete key
    pure (s, log ++ [.done])
  | (s, log), .contains key => do
    let answer ← s.contains key
    pure (s, log ++ [.contained answer])
  | (s, log), .get key => do
    let answer ← s.get key
    pure (s, log ++ [.found answer])

/-- The same call on a map from keys to values. -/
def refStep : (Key → Option Value) × List (Answer Value) → Op Key Value →
    (Key → Option Value) × List (Answer Value)
  | (m, log), .insert _ key value => (insertMap m key value, log ++ [.done])
  | (m, log), .delete key => (Function.update m key none, log ++ [.done])
  | (m, log), .contains key => (m, log ++ [.contained (m key).isSome])
  | (m, log), .get key => (m, log ++ [.found (m key)])

def refRun (ops : List (Op Key Value)) : (Key → Option Value) × List (Answer Value) :=
  ops.foldl refStep (fun _ => none, [])

/-- The call without its coin flips. -/
def Op.erase : Op Key Value → Op Key Value
  | .insert _ key value => .insert [] key value
  | op => op

omit [Inhabited Key] [Inhabited Value] [HasSize Key] [HasSize Value] in
theorem refStep_erase (acc : (Key → Option Value) × List (Answer Value)) (op : Op Key Value) :
    refStep acc op.erase = refStep acc op := by
  cases op <;> rfl

omit [Inhabited Key] [Inhabited Value] [HasSize Key] [HasSize Value] in
/-- The reference map never sees a coin. -/
theorem refRun_erase (ops : List (Op Key Value)) : refRun (ops.map Op.erase) = refRun ops := by
  simp only [refRun, List.foldl_map, refStep_erase]

/-- One call keeps list and map in step and gives the same answer. -/
theorem step_spec {s : SkipList Key Value} {m : Key → Option Value} (h : Represents s m)
    (log : List (Answer Value)) (op : Op Key Value) :
    ∃ s', step (s, log) op = .ok (s', (refStep (m, log) op).2) ∧
      Represents s' (refStep (m, log) op).1 := by
  cases op with
  | insert flips key value =>
      rcases h.insert flips key value with ⟨s', hrun, h'⟩
      exact ⟨s', by simp [step, refStep, hrun], h'⟩
  | delete key =>
      rcases h.delete key with ⟨s', hrun, h'⟩
      exact ⟨s', by simp [step, refStep, hrun], h'⟩
  | contains key => exact ⟨s, by simp [step, refStep, h.contains], h⟩
  | get key => exact ⟨s, by simp [step, refStep, h.get], h⟩

theorem run_spec {s : SkipList Key Value} {m : Key → Option Value} (h : Represents s m)
    (log : List (Answer Value)) (ops : List (Op Key Value)) :
    ∃ s', run step (s, log) ops = .ok (s', (ops.foldl refStep (m, log)).2) ∧
      Represents s' (ops.foldl refStep (m, log)).1 := by
  induction ops generalizing s m log with
  | nil => exact ⟨s, rfl, h⟩
  | cons op ops ih =>
      rcases step_spec h log op with ⟨s₁, hstep, h₁⟩
      rcases ih h₁ (refStep (m, log) op).2 with ⟨s₂, hrun, h₂⟩
      exact ⟨s₂, by rw [run_cons, hstep, ok_bind, hrun]; rfl, h₂⟩

end SkipList

/-- For every sequence of calls and whatever coin flips the insertions see, the
calls on a skip list of byte strings answer as the reference map answers the
same calls without the flips. -/
theorem SkipList.run_refines_map {Value : Type} [Inhabited Value] [HasSize Value]
    (ops : List (SkipList.Op Bytes Value)) :
    ∃ s, run SkipList.step (SkipList.new, []) ops =
      .ok (s, (SkipList.refRun (ops.map SkipList.Op.erase)).2) := by
  rcases SkipList.run_spec SkipList.new_represents [] ops with ⟨s, hrun, -⟩
  exact ⟨s, by rw [hrun, SkipList.refRun_erase, SkipList.refRun]⟩

end Smallkv
