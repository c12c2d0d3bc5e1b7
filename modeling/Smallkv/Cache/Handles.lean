import Smallkv.Cache.Residency

/-!
# Cache.Handles — clients that hold nodes

A node that `get` hands out has to stay alive until its client calls `release`
with the key. But a key names a node only as long as the index does: once the
node was erased or evicted, `release` finds another node or none. While every
release does find its node, a resident is referenced by the shard once and once
by each of its holders (`Tallied`), and nothing that is held or resident is
destroyed (`handles_safe`).
-/

namespace Smallkv

open Fallible Assoc

namespace LRU

variable {K V : Type}

/-- A shard, and what its clients were handed and have not released: the key they
asked for and the node they got. -/
structure Clients (K V : Type) where
  lru : LRU K V
  held : List (K × Ptr)

inductive Action (K V : Type) where
  | insert (key : K) (val : V)
  | erase (key : K)
  | get (key : K)
  /-- `release(key)`, by the client that was handed the node -/
  | release (key : K) (node : Ptr)

namespace Clients

def start (cap : ℕ) : Clients K V := ⟨new cap, []⟩

variable [DecidableEq K]

def act (s : Clients K V) : Action K V → Exec (Clients K V)
  | .insert key val => do
    let lru ← s.lru.insert key val
    pure { s with lru := lru }
  | .erase key => do
    let lru ← s.lru.erase key
    pure { s with lru := lru }
  | .get key => do
    let (lru, node) ← s.lru.get key
    pure ⟨lru, node.toList.map (key, ·) ++ s.held⟩
  | .release key node => do
    let lru ← s.lru.release key
    pure ⟨lru, s.held.erase (key, node)⟩

/-- Clients release what they hold, each node once. -/
def Obeys (s : Clients K V) : Action K V → Prop
  | .release key node => (key, node) ∈ s.held
  | _ => True

/-- A release finds the node it is for under its key, and a `get` finds room in
the count. -/
def Finds (s : Clients K V) : Action K V → Prop
  | .release key node => s.lru.index key = some node
  | .get key => ∀ p node, s.lru.index key = some p → s.lru.heap.load p = some node →
      node.refCnt < 2 ^ 31 - 1
  | _ => True

/-- Neither a node that is held nor a resident was destroyed. -/
structure Safe (s : Clients K V) : Prop where
  held_alive : ∀ key p, (key, p) ∈ s.held → (s.lru.heap.load p).isSome
  resident_alive : ∀ p ∈ s.lru.nodes, (s.lru.heap.load p).isSome

/-- `release(key)` returns, and it is the count of the given node that goes down;
a node whose count is used up is destroyed. -/
def ReleaseRight (s : Clients K V) (key : K) (p : Ptr) : Prop :=
  ∃ l' node, s.lru.release key = .ok l' ∧ s.lru.heap.load p = some node ∧
    l'.heap.load p =
      if asInt32 (node.refCnt - 1) ≤ 0 then none
      else some { node with refCnt := asInt32 (node.refCnt - 1) }

end Clients

/-! ## Tallies -/

/-- Each resident is referenced once by the shard and once by each holder, and
whatever is held is alive. -/
structure Tallied (held : List Ptr) (s : Shelf K V) : Prop where
  count : ∀ r ∈ s.residents, r.node.refCnt = 1 + held.count r.ptr ∧ r.node.refCnt < 2 ^ 31
  alive : ∀ p ∈ held, ∃ r ∈ s.alive, r.ptr = p

/-- The count of a resident without the reference of the shard. -/
theorem Tallied.holders {held : List Ptr} {s : Shelf K V} (h : Tallied held s) {r : Resident K V}
    (hr : r ∈ s.residents) : asInt32 (r.node.refCnt - 1) = held.count r.ptr := by
  rcases h.count r hr with ⟨hcount, hlt⟩
  rw [asInt32_of_lt (by omega) (by omega), hcount]
  omega

variable [DecidableEq K] {held : List Ptr} {l : LRU K V} {s : Shelf K V}
  {A B : List (Resident K V)} {r : Resident K V} {key : K}

omit [DecidableEq K] in
/-- A node at an address that no one holds. -/
theorem Tallied.push (h : Tallied held s) {p : Ptr} (hp : p ∉ held) (key : K) (val : V) :
    Tallied held (s.push (.made p key val)) where
  count := by
    intro q hq
    rcases List.mem_cons.1 hq with rfl | hq
    · have hzero : held.count p = 0 := List.count_eq_zero.2 hp
      simp [Resident.made, hzero]
    · exact h.count q hq
  alive := by
    intro q hq
    rcases h.alive q hq with ⟨r, hr, hptr⟩
    exact ⟨r, List.mem_cons_of_mem _ hr, hptr⟩

/-- A resident leaves: whoever holds it holds it in the garbage station. -/
theorem Tallied.displace (h : Tallied held s) (hsplit : s.residents = A ++ r :: B)
    (hnodup : (s.residents.map fun q => q.node.key).Nodup) : Tallied held (s.displace r) where
  count := by
    intro q hq
    rw [Shelf.residents_displace] at hq
    exact h.count q (List.mem_of_mem_filter hq)
  alive := by
    intro p hp
    have hothers := others_of_split hsplit hnodup
    have hholders := h.holders (r := r) (by simp [hsplit])
    rcases h.alive p hp with ⟨q, hq, rfl⟩
    rw [(alive_perm hsplit r.node.key).mem_iff] at hq
    have hretired : r.retired.node.refCnt = asInt32 (r.node.refCnt - 1) := rfl
    unfold Shelf.displace
    rcases List.mem_cons.1 hq with rfl | hq
    · -- it is held, so its count is not used up
      have hpos := List.count_pos_iff.2 hp
      rw [if_neg (by rw [hretired, hholders]; omega)]
      exact ⟨q.retired, by simp [Shelf.alive], rfl⟩
    · refine ⟨q, ?_, rfl⟩
      split
      · rw [Shelf.alive, hothers]
        exact hq
      · rw [Shelf.alive, hothers]
        rcases List.mem_append.1 hq with hq | hq
        · exact List.mem_append_left _ hq
        · exact List.mem_append_right _ (List.mem_cons_of_mem _ hq)

omit [DecidableEq K] in
/-- A resident moves to the front, and what is alive is still alive. -/
theorem Tallied.toFront (h : Tallied held s) (hsplit : s.residents = A ++ r :: B)
    (lost : List (Resident K V)) :
    Tallied held { s with residents := r :: (A ++ B), lost := lost ++ s.lost } where
  count := by
    intro q hq
    have hperm : (r :: (A ++ B)).Perm (A ++ r :: B) := List.perm_middle.symm
    exact h.count q (hsplit ▸ hperm.subset hq)
  alive := by
    intro p hp
    rcases h.alive p hp with ⟨q, hq, hptr⟩
    rw [(toFront_perm hsplit).mem_iff] at hq
    refine ⟨q, ?_, hptr⟩
    simp only [Shelf.alive, List.cons_append, List.mem_cons, List.mem_append] at hq ⊢
    tauto

omit [DecidableEq K] in
/-- A resident gets another count, to which its holders are adapted. -/
theorem Tallied.recount (h : Tallied held s) (hsplit : s.residents = A ++ r :: B)
    (hptrs : (s.residents.map Resident.ptr).Nodup) (held' : List Ptr) (node : CacheNode K V)
    (hcount : node.refCnt = 1 + held'.count r.ptr ∧ node.refCnt < 2 ^ 31)
    (hother : ∀ p, p ≠ r.ptr → held'.count p = held.count p) :
    Tallied held' { s with residents := A ++ ⟨r.ptr, node⟩ :: B } where
  count := by
    rw [hsplit, List.map_append, List.map_cons, List.nodup_middle, List.nodup_cons] at hptrs
    intro q hq
    have hkeep : q ∈ A ++ B → q.node.refCnt = 1 + held'.count q.ptr ∧ q.node.refCnt < 2 ^ 31 := by
      intro hmem
      have hne : q.ptr ≠ r.ptr := by
        intro heq
        rw [← heq, ← List.map_append] at hptrs
        exact hptrs.1 (List.mem_map_of_mem hmem)
      rw [hother q.ptr hne]
      exact h.count q (by rw [hsplit]; simp only [List.mem_append, List.mem_cons] at hmem ⊢; tauto)
    rcases List.mem_append.1 hq with hq | hq
    · exact hkeep (List.mem_append_left _ hq)
    · rcases List.mem_cons.1 hq with rfl | hq
      · exact hcount
      · exact hkeep (List.mem_append_right _ hq)
  alive := by
    intro p hp
    by_cases hptr : p = r.ptr
    · exact ⟨⟨r.ptr, node⟩, by simp [Shelf.alive], hptr.symm⟩
    · have hmem : p ∈ held := by
        rw [← List.count_pos_iff, ← hother p hptr, List.count_pos_iff]
        exact hp
      rcases h.alive p hmem with ⟨q, hq, rfl⟩
      have hne : q ≠ r := fun heq => hptr (heq ▸ rfl)
      refine ⟨q, ?_, rfl⟩
      simp only [Shelf.alive, hsplit, List.mem_append, List.mem_cons] at hq ⊢
      tauto

/-! ## Releasing -/

/-- A resident with holders is released. -/
theorem release_shelved (h : Shelved l s) (hsplit : s.residents = A ++ r :: B)
    (hcount : 0 < asInt32 (r.node.refCnt - 1)) :
    ∃ l', l.release r.node.key = .ok l' ∧
      Shelved l' { s with residents := A ++ r.released :: B } := by
  have hload : l.heap.load r.ptr = some r.node := h.linked.loads r (by simp [hsplit])
  have hlinked := h.linked
  rw [hsplit] at hlinked
  refine ⟨{ l with heap := l.heap.store r.ptr r.released.node }, ?_, ?_⟩
  · simp only [release, h.linked.index_of_split hsplit, orFail_some, ok_bind, unref, hload,
      if_neg (not_le.2 hcount)]
    rfl
  · exact
      { linked := hlinked.recount _
        station_eq := h.station_eq
        station_nodup := h.station_nodup
        inventory := by
          have hperm : (r.released :: (A ++ B ++ (s.garbage ++ s.lost))).Perm
              (A ++ r.released :: B ++ (s.garbage ++ s.lost)) :=
            List.perm_middle.symm.append_right _
          have hheap := h.inventory.perm ((toFront_perm hsplit).map Resident.cell)
          exact (hheap.store _).perm (hperm.map Resident.cell)
        destroyed_eq := h.destroyed_eq }

/-- A count never stays what it is. -/
theorem asInt32_pred_ne (x : ℤ) : asInt32 (x - 1) ≠ x := by
  intro h
  have hmod : asInt32 (x - 1) % 2 ^ 32 = (x - 1) % 2 ^ 32 := Int.bmod_emod
  rw [h] at hmod
  omega

/-- `unref` takes one reference from a node and leaves all others as they are. -/
theorem unref_loads {q : Ptr} {node : CacheNode K V} (hload : l.heap.load q = some node) :
    ∃ l', l.unref q = .ok l' ∧
      (l'.heap.load q =
        if asInt32 (node.refCnt - 1) ≤ 0 then none
        else some { node with refCnt := asInt32 (node.refCnt - 1) }) ∧
      ∀ p, p ≠ q → l'.heap.load p = l.heap.load p := by
  by_cases hcount : asInt32 (node.refCnt - 1) ≤ 0
  · have hrun : l.unref q = .ok
        { l with
          heap := l.heap.free q
          garbageStation := Function.update l.garbageStation node.key none
          destroyed := l.destroyed ++ [node.val] } := by
      simp only [unref, hload, orFail_some, ok_bind, if_pos hcount, pure_eq_ok]
    refine ⟨_, hrun, ?_, fun p hne => Arena.load_free_of_ne hne⟩
    rw [if_pos hcount]
    exact Arena.load_free_self _ _
  · have hrun : l.unref q = .ok
        { l with heap := l.heap.store q { node with refCnt := asInt32 (node.refCnt - 1) } } := by
      simp only [unref, hload, orFail_some, ok_bind, if_neg hcount, pure_eq_ok]
    refine ⟨_, hrun, ?_, fun p hne => Arena.load_store_of_ne _ hne⟩
    rw [if_neg hcount]
    exact Arena.load_store_self _ hload

namespace Clients

/-- A release does what it is for exactly if the index has the node. -/
theorem releaseRight_iff {c : Clients K V} {p : Ptr} (halive : (c.lru.heap.load p).isSome) :
    ReleaseRight c key p ↔ c.lru.index key = some p := by
  rcases Option.isSome_iff_exists.1 halive with ⟨node, hload⟩
  constructor
  · rintro ⟨l', node', hrun, hnode, hafter⟩
    rcases bind_eq_ok.1 hrun with ⟨q, hq, hunref⟩
    rcases bind_eq_ok.1 hunref with ⟨other, hother, -⟩
    rw [orFail_eq_ok] at hq hother
    by_cases hpq : p = q
    · rw [hq, hpq]
    · -- another node was released
      exfalso
      rcases unref_loads hother with ⟨l₁, hrun₁, -, hframe⟩
      obtain rfl : l₁ = l' := Except.ok.inj (hrun₁.symm.trans hunref)
      rw [hframe p hpq, hnode] at hafter
      split at hafter
      · cases hafter
      · have hrefCnt := congrArg CacheNode.refCnt (Option.some.inj hafter)
        exact asInt32_pred_ne _ hrefCnt.symm
  · intro hindex
    rcases unref_loads hload with ⟨l', hrun, hafter, -⟩
    exact ⟨l', node, by rw [release, hindex, orFail_some, ok_bind, hrun], hload, hafter⟩

/-- The clients' shard is on a shelf, and its counts are those of the holders. -/
def Inv (c : Clients K V) : Prop :=
  ∃ s, Shelved c.lru s ∧ Tallied (c.held.map Prod.snd) s

theorem start_inv (cap : ℕ) : Inv (start cap : Clients K V) := by
  refine ⟨_, new_shelved cap, ?_, ?_⟩
  · intro r hr
    cases hr
  · intro p hp
    cases hp

theorem insert_inv {c : Clients K V} (h : Inv c) (key : K) (val : V) :
    ∃ t, c.act (.insert key val) = .ok t ∧ Inv t := by
  rcases h with ⟨s, hs, htally⟩
  rcases insert_shelved hs key val with ⟨l', hrun, hl', -⟩
  refine ⟨⟨l', c.held⟩, by simp only [act, hrun, ok_bind, pure_eq_ok], _, hl', ?_⟩
  have hfresh : c.lru.heap.fresh ∉ c.held.map Prod.snd := by
    intro hmem
    rcases htally.alive _ hmem with ⟨r, hr, hptr⟩
    exact Arena.ne_fresh (hs.load hr) hptr
  cases hfind : s.find key with
  | none =>
      have hpush := htally.push hfresh key val
      by_cases hfull : s.residents.length + 1 > c.lru.cap
      · rw [Shelf.insert_full hfind hfull]
        exact hpush.displace (s.push_last _) (push_shelved hs hfind val).linked.key_nodup
      · rw [Shelf.insert_room hfind hfull]
        exact hpush
  | some r =>
      rcases hs.split hfind with ⟨A, B, hsplit, hothers, -, -⟩
      rw [Shelf.insert_found hfind, hothers]
      exact htally.toFront hsplit [_]

theorem erase_inv {c : Clients K V} (h : Inv c) (key : K) :
    ∃ t, c.act (.erase key) = .ok t ∧ Inv t := by
  rcases h with ⟨s, hs, htally⟩
  rcases erase_shelved hs key with ⟨l', hrun, hl', -⟩
  refine ⟨⟨l', c.held⟩, by simp only [act, hrun, ok_bind, pure_eq_ok], _, hl', ?_⟩
  cases hfind : s.find key with
  | none =>
      rw [Shelf.erase_missing hfind]
      exact htally
  | some r =>
      rcases hs.split hfind with ⟨A, B, hsplit, -, -, -⟩
      rw [Shelf.erase_found hfind]
      exact htally.displace hsplit hs.linked.key_nodup

theorem get_inv {c : Clients K V} (h : Inv c) {key : K} (hfinds : c.Finds (.get key)) :
    ∃ t, c.act (.get key) = .ok t ∧ Inv t := by
  rcases h with ⟨s, hs, htally⟩
  rcases get_shelved hs key with ⟨l', hrun, hl', -⟩
  refine ⟨⟨l', ((s.find key).map Resident.ptr).toList.map (key, ·) ++ c.held⟩,
    by simp only [act, hrun, ok_bind, pure_eq_ok], _, hl', ?_⟩
  cases hfind : s.find key with
  | none =>
      rw [Shelf.get_missing hfind]
      exact htally
  | some r =>
      rcases hs.split hfind with ⟨A, B, hsplit, hothers, -, hp⟩
      have hr : r ∈ s.residents := by simp [hsplit]
      have hlt := hfinds _ _ hp (hs.linked.loads r hr)
      rcases htally.count r hr with ⟨hcount, -⟩
      have hinc : asInt32 (r.node.refCnt + 1) = r.node.refCnt + 1 :=
        asInt32_of_lt (by omega) (by omega)
      have hheld : (((some r).map Resident.ptr).toList.map (key, ·) ++ c.held).map Prod.snd =
          r.ptr :: c.held.map Prod.snd := rfl
      have hfront := (htally.toFront hsplit []).recount (A := []) (B := A ++ B) rfl
        (hs.linked.spliceFront hsplit).ptr_nodup (r.ptr :: c.held.map Prod.snd) r.referenced.node
      rw [Shelf.get_found hfind, hothers, hheld]
      refine hfront ?_ ?_
      · rw [List.count_cons_self]
        simp only [Resident.referenced, hinc]
        push_cast
        omega
      · intro p hne
        rw [List.count_cons_of_ne hne.symm]

theorem release_inv {c : Clients K V} (h : Inv c) {key : K} {p : Ptr}
    (hobeys : c.Obeys (.release key p)) (hfinds : c.Finds (.release key p)) :
    ∃ t, c.act (.release key p) = .ok t ∧ Inv t := by
  rcases h with ⟨s, hs, htally⟩
  rcases hs.find_of_index hfinds with ⟨r, hfind, rfl⟩
  rcases hs.split hfind with ⟨A, B, hsplit, -, rfl, -⟩
  have hr : r ∈ s.residents := by simp [hsplit]
  have hmem : r.ptr ∈ c.held.map Prod.snd := List.mem_map_of_mem hobeys
  have hpos := List.count_pos_iff.2 hmem
  have hholders := htally.holders hr
  rcases htally.count r hr with ⟨hcount, hlt⟩
  rcases release_shelved hs hsplit (by rw [hholders]; omega) with ⟨l', hrun, hl'⟩
  refine ⟨⟨l', c.held.erase (r.node.key, r.ptr)⟩,
    by simp only [act, hrun, ok_bind, pure_eq_ok], _, hl', ?_⟩
  -- one holder less, whose pointer is this one
  have hperm : (c.held.map Prod.snd).Perm
      (r.ptr :: (c.held.erase (r.node.key, r.ptr)).map Prod.snd) :=
    (List.perm_cons_erase hobeys).map Prod.snd
  refine htally.recount hsplit hs.linked.ptr_nodup _ r.released.node ?_ ?_
  · have hself := hperm.count_eq r.ptr
    rw [List.count_cons_self] at hself
    simp only [Resident.released, hholders]
    omega
  · intro q hne
    rw [hperm.count_eq q, List.count_cons_of_ne hne.symm]

/-- An action that obeys the protocol and finds its node returns and keeps the
counts. -/
theorem act_inv {c : Clients K V} (h : Inv c) {a : Action K V} (hobeys : c.Obeys a)
    (hfinds : c.Finds a) : ∃ t, c.act a = .ok t ∧ Inv t := by
  cases a with
  | insert key val => exact insert_inv h key val
  | erase key => exact erase_inv h key
  | get key => exact get_inv h hfinds
  | release key p => exact release_inv h hobeys hfinds

theorem Inv.safe {c : Clients K V} (h : Inv c) : Safe c := by
  rcases h with ⟨s, hs, htally⟩
  refine ⟨?_, ?_⟩
  · intro key p hp
    rcases htally.alive p (List.mem_map_of_mem hp) with ⟨r, hr, rfl⟩
    rw [hs.load hr]
    rfl
  · intro p hp
    rw [hs.linked.nodes_eq, List.mem_map] at hp
    rcases hp with ⟨r, hr, rfl⟩
    rw [hs.linked.loads r hr]
    rfl

/-- In every run of clients that release each node they hold once, and all of
whose releases find their node, nothing held or resident is destroyed; the next
such action returns; and the next release is right exactly if the index has the
node. -/
theorem handles_safe (cap : ℕ) {actions : List (Action K V)} {c : Clients K V}
    (hrun : GuardedRun act (fun c a => c.Obeys a ∧ c.Finds a) (start cap) actions c) :
    Safe c ∧ (∀ a, c.Obeys a → c.Finds a → ∃ t, c.act a = .ok t) ∧
      ∀ key p, (key, p) ∈ c.held → (ReleaseRight c key p ↔ c.lru.index key = some p) := by
  have hinv : Inv c := by
    refine hrun.invariant (fun _ c => Inv c) (start_inv cap) ?_
    rintro _ c a t h ⟨hobeys, hfinds⟩ hact
    rcases act_inv h hobeys hfinds with ⟨t', hact', ht'⟩
    obtain rfl : t = t' := Except.ok.inj (hact.symm.trans hact')
    exact ht'
  refine ⟨hinv.safe, ?_, ?_⟩
  · intro a hobeys hfinds
    rcases act_inv hinv hobeys hfinds with ⟨t, hact, -⟩
    exact ⟨t, hact⟩
  · intro key p hp
    exact releaseRight_iff (hinv.safe.held_alive key p hp)

/-- A node is handed out and released while it is resident. -/
theorem handles_safe_release :
    ∃ c : Clients ℕ ℕ,
      GuardedRun act (fun c a => c.Obeys a ∧ c.Finds a) (start 1)
        [.insert 0 10, .get 0, .release 0 0] c ∧
      Safe c ∧ (∀ a, c.Obeys a → c.Finds a → ∃ t, c.act a = .ok t) ∧
        ∀ key p, (key, p) ∈ c.held → (ReleaseRight c key p ↔ c.lru.index key = some p) := by
  have hrun : ∃ c : Clients ℕ ℕ, GuardedRun act (fun c a => c.Obeys a ∧ c.Finds a) (start 1)
      ([.insert 0 10] ++ [.get 0] ++ [.release 0 0]) c := by
    refine ⟨_, .snoc (.snoc (.single ⟨trivial, trivial⟩ rfl) ⟨trivial, ?_⟩ rfl)
      ⟨List.mem_singleton.2 rfl, rfl⟩ rfl⟩
    intro p node hp hnode
    cases hp
    cases hnode
    decide
  rcases hrun with ⟨c, hc⟩
  exact ⟨c, hc, handles_safe 1 hc⟩

/-- Behind an `erase` the holder has nothing to release by. -/
theorem erased_node_not_released :
    ∃ c : Clients ℕ ℕ, run act (start 1) [.insert 0 10, .get 0, .erase 0] = .ok c ∧
      c.Obeys (.release 0 0) ∧ c.act (.release 0 0) = .error .badAccess ∧
      ¬ ReleaseRight c 0 0 := by
  refine ⟨_, rfl, List.mem_singleton.2 rfl, rfl, ?_⟩
  rintro ⟨l', node, hrun, -⟩
  cases hrun

end Clients

end LRU

end Smallkv
