import Smallkv.Cache.Residency

/-!
# Cache.Ownership — where the values are

A value that is passed to `insert` should have one owner for the rest of its
life: a resident, a node in the garbage station, or, in the end, the destructor.
On a shelf nothing is ever missing, since it also lists what is lost, so values
are conserved exactly as long as that list is empty (`lru_conserved_iff`).
-/

namespace Smallkv

open Fallible Assoc

namespace LRU

variable {K V : Type}

/-- The value that a call passes to the shard. -/
def Call.passed : Call K V → List V
  | .insert _ val => [val]
  | _ => []

def passed (calls : List (Call K V)) : List V := calls.flatMap Call.passed

/-- A resident holds the value. -/
def HeldByResident (l : LRU K V) (val : V) : Prop :=
  ∃ p node, p ∈ l.nodes ∧ l.heap.load p = some node ∧ node.val = val

/-- A node in the garbage station holds it, and is referenced. -/
def HeldByGarbage (l : LRU K V) (val : V) : Prop :=
  ∃ key p node, l.garbageStation key = some p ∧ l.heap.load p = some node ∧ node.val = val ∧
    0 < node.refCnt

/-- Every value is in one of the three places, in no two of them, and none was
handed to the destructor twice. -/
structure Conserved (l : LRU K V) (vals : List V) : Prop where
  owned : ∀ val ∈ vals, l.HeldByResident val ∨ l.HeldByGarbage val ∨ val ∈ l.destroyed
  not_resident_garbage : ∀ val ∈ vals, ¬ (l.HeldByResident val ∧ l.HeldByGarbage val)
  not_resident_destroyed : ∀ val ∈ vals, ¬ (l.HeldByResident val ∧ val ∈ l.destroyed)
  not_garbage_destroyed : ∀ val ∈ vals, ¬ (l.HeldByGarbage val ∧ val ∈ l.destroyed)
  destroyed_once : l.destroyed.Nodup

/-- What is inserted is a new key, and what is given up finds its place in the
garbage station free. -/
def KeepsTrack (l : LRU K V) : Call K V → Prop
  | .insert key _ =>
    l.index key = none ∧ ∀ k, l.victim key = some k → l.garbageStation k = none
  | .erase key => l.index key = none ∨ l.garbageStation key = none
  | _ => True

/-! ## The values on a shelf -/

/-- The values of the nodes that are alive, and those that were destroyed. -/
def Shelf.vals (s : Shelf K V) : List V := s.alive.map (fun r => r.node.val) ++ s.destroyed

variable [DecidableEq K] {l : LRU K V} {s : Shelf K V} {A B : List (Resident K V)}
  {r : Resident K V} {key : K}

theorem garbageStation_eq_none_iff (h : Shelved l s) :
    l.garbageStation key = none ↔ s.forgotten key = [] := by
  rw [h.station_eq, toMap_eq_none_iff, Shelf.forgotten, List.filter_eq_nil_iff]
  simp

/-- Who leaves hands the value on. -/
theorem vals_displace (hsplit : s.residents = A ++ r :: B)
    (hnodup : (s.residents.map fun q => q.node.key).Nodup) :
    (s.displace r).vals.Perm s.vals := by
  have hothers := others_of_split hsplit hnodup
  have hperm := (alive_perm hsplit r.node.key).map fun r => r.node.val
  rw [List.map_cons] at hperm
  refine List.Perm.symm ((hperm.append_right s.destroyed).trans ?_)
  unfold Shelf.displace
  split
  · have hlast := (List.perm_append_singleton r.node.val
      ((A ++ B ++ (s.waiting r.node.key ++ (s.forgotten r.node.key ++ s.lost))).map
        (fun r => r.node.val) ++ s.destroyed)).symm
    rw [Shelf.vals, Shelf.alive, hothers]
    simpa only [List.append_assoc, List.cons_append] using hlast
  · have hmiddle : (r.retired :: (A ++ B ++ (s.waiting r.node.key ++
        (s.forgotten r.node.key ++ s.lost)))).Perm (A ++ B ++ (r.retired ::
          (s.waiting r.node.key ++ (s.forgotten r.node.key ++ s.lost)))) := List.perm_middle.symm
    rw [Shelf.vals, Shelf.alive, hothers]
    exact (hmiddle.map fun r => r.node.val).append_right s.destroyed

/-- A call adds the value it passes and loses none. -/
theorem call_vals (h : Shelved l s) (c : Call K V) :
    (s.call l.cap l.heap.fresh c).vals.Perm (c.passed ++ s.vals) := by
  cases c with
  | insert key val =>
      rw [Shelf.call, Call.passed]
      cases hfind : s.find key with
      | none =>
          have hpush := push_shelved h hfind val
          -- the resident that goes is moved, not dropped
          by_cases hfull : s.residents.length + 1 > l.cap
          · rw [Shelf.insert_full hfind hfull]
            exact vals_displace (s.push_last _) hpush.linked.key_nodup
          · rw [Shelf.insert_room hfind hfull]
            exact List.Perm.refl _
      | some r =>
          rcases h.split hfind with ⟨A, B, hsplit, hothers, -, -⟩
          have hperm := (strand_perm hsplit (Resident.made l.heap.fresh key val)).map
            fun r => r.node.val
          rw [Shelf.insert_found hfind, Shelf.vals, Shelf.alive, hothers]
          exact (hperm.append_right s.destroyed).symm
  | erase key =>
      show (s.erase key).vals.Perm s.vals
      cases hfind : s.find key with
      | none => rw [Shelf.erase_missing hfind]
      | some r =>
          rcases h.split hfind with ⟨A, B, hsplit, -, -, -⟩
          rw [Shelf.erase_found hfind]
          exact vals_displace hsplit h.linked.key_nodup
  | get key =>
      show (s.get key).vals.Perm s.vals
      cases hfind : s.find key with
      | none => rw [Shelf.get_missing hfind]
      | some r =>
          rcases h.split hfind with ⟨A, B, hsplit, hothers, -, -⟩
          have hperm := (toFront_perm hsplit).map fun r => r.node.val
          rw [Shelf.get_found hfind, Shelf.vals, Shelf.alive, hothers]
          exact (hperm.append_right s.destroyed).symm
  | contains key => exact List.Perm.refl _

/-- What waits in the garbage station is referenced. -/
def Shelf.GarbageReferenced (s : Shelf K V) : Prop := ∀ g ∈ s.garbage, 0 < g.node.refCnt

theorem garbageReferenced_displace (h : s.GarbageReferenced) (r : Resident K V) :
    (s.displace r).GarbageReferenced := by
  have hwaiting : ∀ g ∈ s.waiting r.node.key, 0 < g.node.refCnt :=
    fun g hg => h g (List.mem_of_mem_filter hg)
  unfold Shelf.displace
  split
  · exact hwaiting
  · rename_i hcount
    intro g hg
    rcases List.mem_cons.1 hg with rfl | hg
    · omega
    · exact hwaiting g hg

theorem call_garbageReferenced (h : s.GarbageReferenced) (cap : ℕ) (p : Ptr) (c : Call K V) :
    (s.call cap p c).GarbageReferenced := by
  cases c with
  | insert key val =>
      rw [Shelf.call]
      cases hfind : s.find key with
      | none =>
          by_cases hfull : s.residents.length + 1 > cap
          · have hpush : (s.push (.made p key val)).GarbageReferenced := h
            rw [Shelf.insert_full hfind hfull]
            exact garbageReferenced_displace hpush _
          · rw [Shelf.insert_room hfind hfull]
            exact h
      | some r =>
          rw [Shelf.insert_found hfind]
          exact h
  | erase key =>
      rw [Shelf.call]
      cases hfind : s.find key with
      | none =>
          rw [Shelf.erase_missing hfind]
          exact h
      | some r =>
          rw [Shelf.erase_found hfind]
          exact garbageReferenced_displace h r
  | get key =>
      rw [Shelf.call]
      cases hfind : s.find key with
      | none =>
          rw [Shelf.get_missing hfind]
          exact h
      | some r =>
          rw [Shelf.get_found hfind]
          exact h
  | contains key => exact h

/-- What a run has on its shelf. -/
theorem run_stocked (cap : ℕ) (calls : List (Call K V)) :
    ∃ l s, run call (new cap) calls = .ok l ∧ Shelved l s ∧ l.cap = cap ∧
      s.vals.Perm (passed calls) ∧ s.GarbageReferenced := by
  induction calls using List.reverseRecOn with
  | nil =>
      refine ⟨_, _, rfl, new_shelved cap, rfl, List.Perm.refl _, ?_⟩
      intro g hg
      cases hg
  | append_singleton calls c ih =>
      rcases ih with ⟨l, s, hrun, hl, rfl, hvals, hgarbage⟩
      rcases call_shelved hl c with ⟨l', hcall, hl', hcap⟩
      refine ⟨l', _, run_concat_ok.2 ⟨l, hrun, hcall⟩, hl', hcap, ?_,
        call_garbageReferenced hgarbage _ _ c⟩
      rw [passed, List.flatMap_append, List.flatMap_singleton]
      exact (call_vals hl c).trans ((hvals.append_left _).trans List.perm_append_comm)

/-! ## Conservation -/

theorem heldByResident_iff (h : Shelved l s) (val : V) :
    l.HeldByResident val ↔ val ∈ s.residents.map fun r => r.node.val := by
  rw [List.mem_map]
  constructor
  · rintro ⟨p, node, hp, hload, rfl⟩
    rw [h.linked.nodes_eq, List.mem_map] at hp
    rcases hp with ⟨r, hr, rfl⟩
    obtain rfl := Option.some.inj ((h.linked.loads r hr).symm.trans hload)
    exact ⟨r, hr, rfl⟩
  · rintro ⟨r, hr, rfl⟩
    refine ⟨r.ptr, r.node, ?_, h.linked.loads r hr, rfl⟩
    rw [h.linked.nodes_eq]
    exact List.mem_map_of_mem hr

theorem heldByGarbage_iff (h : Shelved l s) (hgarbage : s.GarbageReferenced) (val : V) :
    l.HeldByGarbage val ↔ val ∈ s.garbage.map fun g => g.node.val := by
  have hnodup : ((s.garbage.map fun g => (g.node.key, g.ptr)).map Prod.fst).Nodup := by
    simpa [Function.comp_def] using h.station_nodup
  have hload : ∀ g ∈ s.garbage, l.heap.load g.ptr = some g.node :=
    fun g hg => h.load (by simp [Shelf.alive, hg])
  rw [List.mem_map]
  constructor
  · rintro ⟨key, p, node, hp, hnode, rfl, -⟩
    rw [h.station_eq, toMap_eq_some_iff hnodup, List.mem_map] at hp
    rcases hp with ⟨g, hg, heq⟩
    cases heq
    obtain rfl := Option.some.inj ((hload g hg).symm.trans hnode)
    exact ⟨g, hg, rfl⟩
  · rintro ⟨g, hg, rfl⟩
    refine ⟨g.node.key, g.ptr, g.node, ?_, hload g hg, rfl, hgarbage g hg⟩
    rw [h.station_eq, toMap_eq_some_iff hnodup]
    exact List.mem_map.2 ⟨g, hg, rfl⟩

/-- Values that were all different are conserved exactly if none is lost. -/
theorem conserved_iff (h : Shelved l s) (hgarbage : s.GarbageReferenced) {vals : List V}
    (hvals : s.vals.Perm vals) (hnodup : vals.Nodup) : Conserved l vals ↔ s.lost = [] := by
  have hall := hvals.nodup_iff.2 hnodup
  simp only [Shelf.vals, Shelf.alive, List.map_append, List.nodup_append] at hall
  rcases hall with ⟨⟨-, ⟨-, -, hgarbageLost⟩, hresident⟩, hdestroyed, halive⟩
  have hmem : ∀ val, val ∈ vals ↔ val ∈ s.vals := fun val => hvals.mem_iff.symm
  constructor
  · intro hconserved
    by_contra hlost
    rcases List.exists_mem_of_ne_nil _ hlost with ⟨x, hx⟩
    have hxval := List.mem_map_of_mem (f := fun r : Resident K V => r.node.val) hx
    have hin : x.node.val ∈ vals := by
      rw [hmem, Shelf.vals, Shelf.alive]
      simp only [List.map_append, List.mem_append, hxval, or_true, true_or]
    -- the value of a lost node is in none of the three places
    rcases hconserved.owned _ hin with hres | hgar | hdes
    · rw [heldByResident_iff h] at hres
      exact hresident _ hres _ (List.mem_append_right _ hxval) rfl
    · rw [heldByGarbage_iff h hgarbage] at hgar
      exact hgarbageLost _ hgar _ hxval rfl
    · rw [h.destroyed_eq] at hdes
      exact halive _ (List.mem_append_right _ (List.mem_append_right _ hxval)) _ hdes rfl
  · intro hlost
    refine ⟨?_, ?_, ?_, ?_, ?_⟩
    · intro val hval
      rw [hmem, Shelf.vals, Shelf.alive, hlost, List.append_nil, List.map_append, List.mem_append,
        List.mem_append, or_assoc] at hval
      rwa [heldByResident_iff h, heldByGarbage_iff h hgarbage, h.destroyed_eq]
    · rintro val - ⟨hres, hgar⟩
      rw [heldByResident_iff h] at hres
      rw [heldByGarbage_iff h hgarbage] at hgar
      exact hresident _ hres _ (List.mem_append_left _ hgar) rfl
    · rintro val - ⟨hres, hdes⟩
      rw [heldByResident_iff h] at hres
      rw [h.destroyed_eq] at hdes
      exact halive _ (List.mem_append_left _ hres) _ hdes rfl
    · rintro val - ⟨hgar, hdes⟩
      rw [heldByGarbage_iff h hgarbage] at hgar
      rw [h.destroyed_eq] at hdes
      exact halive _ (List.mem_append_right _ (List.mem_append_left _ hgar)) _ hdes rfl
    · rw [h.destroyed_eq]
      exact hdestroyed

/-! ## What is lost -/

/-- As long as nothing is lost, a call loses nothing exactly if it keeps track. -/
theorem call_lost_iff (h : Shelved l s) (hlost : s.lost = []) (c : Call K V) :
    (s.call l.cap l.heap.fresh c).lost = [] ↔ KeepsTrack l c := by
  cases c with
  | insert key val =>
      have hindex := h.index_eq key
      rw [Shelf.call, KeepsTrack, victim_eq h key l.heap.fresh val]
      cases hfind : s.find key with
      | none =>
          rw [hfind, Option.map_none] at hindex
          by_cases hfull : s.residents.length + 1 > l.cap
          · rw [Shelf.insert_full hfind hfull, if_pos hfull, Shelf.lost_displace, Shelf.push, hlost,
              List.append_nil]
            -- what is forgotten is what had the place of the resident that goes
            constructor
            · intro hforgotten
              refine ⟨hindex, ?_⟩
              intro k hk
              rw [← Option.some.inj hk, garbageStation_eq_none_iff h]
              exact hforgotten
            · rintro ⟨-, hfree⟩
              exact (garbageStation_eq_none_iff h).1 (hfree _ rfl)
          · rw [Shelf.insert_room hfind hfull, if_neg hfull]
            refine iff_of_true hlost ⟨hindex, ?_⟩
            intro k hk
            cases hk
      | some r =>
          -- the node that was made for the key is known to nobody
          rw [Shelf.insert_found hfind]
          refine iff_of_false (List.cons_ne_nil _ _) ?_
          rintro ⟨hnone, -⟩
          rw [hindex, hfind] at hnone
          cases hnone
  | erase key =>
      have hindex := h.index_eq key
      rw [Shelf.call, KeepsTrack, hindex]
      cases hfind : s.find key with
      | none =>
          rw [Shelf.erase_missing hfind]
          exact iff_of_true hlost (Or.inl rfl)
      | some r =>
          rcases h.split hfind with ⟨A, B, -, -, hkey, -⟩
          rw [Shelf.erase_found hfind, Shelf.lost_displace, hlost, List.append_nil, hkey,
            garbageStation_eq_none_iff h]
          simp
  | get key =>
      rw [Shelf.call]
      refine iff_of_true ?_ trivial
      cases hfind : s.find key with
      | none => rw [Shelf.get_missing hfind, hlost]
      | some r => rw [Shelf.get_found hfind, hlost]
  | contains key => exact iff_of_true hlost trivial

omit [DecidableEq K] in
theorem passed_of_prefix {as calls : List (Call K V)} (hpre : as <+: calls)
    (hfresh : (passed calls).Nodup) : (passed as).Nodup := by
  rcases hpre with ⟨bs, rfl⟩
  rw [passed, List.flatMap_append] at hfresh
  exact hfresh.sublist (List.sublist_append_left _ _)

/-- All through a run of calls that pass fresh values every value has one owner,
exactly if every call of the run keeps track. -/
theorem lru_conserved_iff (cap : ℕ) (calls : List (Call K V)) (hfresh : (passed calls).Nodup) :
    ∃ l, run call (new cap) calls = .ok l ∧
      (Always call (fun as l => Conserved l (passed as)) (new cap) calls ↔
        GuardedRun call KeepsTrack (new cap) calls l) := by
  rcases run_stocked cap calls with ⟨l, -, hrun, -⟩
  refine ⟨l, hrun, always_iff_guardedRun ?_ ?_ hrun⟩
  · have hnone : (Shelf.empty : Shelf K V).GarbageReferenced := by
      intro g hg
      cases hg
    exact (conserved_iff (new_shelved cap) hnone (List.Perm.refl _) List.nodup_nil).2 rfl
  · intro as l₁ c l₂ hpre has hconserved hcall
    rcases run_stocked cap as with ⟨l₁', s, has', hl₁, -, hvals, hgarbage⟩
    obtain rfl : l₁ = l₁' := Except.ok.inj (has.symm.trans has')
    rcases call_shelved hl₁ c with ⟨l₂', hcall', hl₂, -⟩
    obtain rfl : l₂ = l₂' := Except.ok.inj (hcall.symm.trans hcall')
    have hnodup := passed_of_prefix hpre hfresh
    have hbefore := passed_of_prefix (List.prefix_append as [c]) hnodup
    have hvals' : (s.call l₁.cap l₁.heap.fresh c).vals.Perm (passed (as ++ [c])) := by
      rw [passed, List.flatMap_append, List.flatMap_singleton]
      exact (call_vals hl₁ c).trans ((hvals.append_left _).trans List.perm_append_comm)
    rw [conserved_iff hl₁ hgarbage hvals hbefore] at hconserved
    rw [conserved_iff hl₂ (call_garbageReferenced hgarbage _ _ c) hvals' hnodup]
    exact call_lost_iff hl₁ hconserved c

/-- Two keys in a shard for one: the first value goes to the destructor. -/
theorem lru_conserved_iff_two :
    ∃ l, run call (new 1) [.insert (0 : ℕ) (10 : ℕ), .insert 1 11] = .ok l ∧
      (Always call (fun as l => Conserved l (passed as)) (new 1)
          [.insert (0 : ℕ) (10 : ℕ), .insert 1 11] ↔
        GuardedRun call KeepsTrack (new 1) [.insert 0 10, .insert 1 11] l) :=
  lru_conserved_iff 1 _ (by decide)

/-- The second value of a key that is in the shard has no owner. -/
theorem second_value_lost :
    ¬ Always call (fun as l => Conserved l (passed as)) (new 2)
      [.insert (0 : ℕ) (10 : ℕ), .insert 0 11] := by
  intro h
  have hconserved := h _ (List.prefix_refl _) _ rfl
  rcases hconserved.owned 11 (by decide) with ⟨p, node, hp, hload, hval⟩ |
    ⟨key, p, node, hp, -⟩ | hdestroyed
  · have hp0 : p = 0 := List.mem_singleton.1 hp
    subst hp0
    cases hload
    cases hval
  · cases hp
  · cases hdestroyed

end LRU

end Smallkv
