import Mathlib

/-!
# Assoc — association lists as finite maps

`List.lookup` reads a list of key-value pairs as a map. The rules say what the
map becomes when a pair is put in or taken out in the middle of the list, and
how a stack of such maps answers when the newest one that knows the key wins.
-/

namespace Assoc

variable {K : Type u} {V : Type v}

/-- `m` knows no more than `m'`, and nothing different. -/
def Submap (m m' : K → Option V) : Prop := ∀ k v, m k = some v → m' k = some v

theorem submap_empty (m : K → Option V) : Submap (fun _ => none) m := by
  intro k v hk
  cases hk

/-- Keys in strict order are not repeated. -/
theorem nodup_keys_of_sorted [Preorder K] {l : List (K × V)}
    (h : l.Pairwise fun a b => a.1 < b.1) : (l.map Prod.fst).Nodup := by
  rw [List.Nodup, List.pairwise_map]
  exact h.imp fun hlt => ne_of_lt hlt

/-! ## Stacks of maps -/

/-- The answer of the first map of the stack that knows the key. -/
def overlay (ms : List (K → Option V)) (k : K) : Option V := ms.findSome? (· k)

@[simp] theorem overlay_nil (k : K) : overlay ([] : List (K → Option V)) k = none := rfl

theorem overlay_cons (m : K → Option V) (ms : List (K → Option V)) (k : K) :
    overlay (m :: ms) k = (m k).or (overlay ms k) := by
  cases h : m k with
  | none => simp [overlay, h]
  | some v => simp [overlay, h]

/-- What a stack answers one of its maps does. -/
theorem exists_of_overlay {ms : List (K → Option V)} {k : K} {v : V} (h : overlay ms k = some v) :
    ∃ m ∈ ms, m k = some v :=
  List.exists_of_findSome?_eq_some h

/-- What the top map of a stack knows the stack stands for. -/
theorem submap_overlay (m : K → Option V) (ms : List (K → Option V)) :
    Submap m (overlay (m :: ms)) := by
  intro k v hk
  rw [overlay_cons, hk, Option.some_or]

/-- An empty map on top answers nothing. -/
theorem overlay_push_empty (ms : List (K → Option V)) :
    overlay ((fun _ => none) :: ms) = overlay ms := by
  funext k
  simp [overlay_cons]

variable [DecidableEq K]

/-- A write to the top of the stack is a write to what the stack stands for. -/
theorem overlay_update_top (m : K → Option V) (ms : List (K → Option V)) (a : K) (v : V) :
    overlay (Function.update m a (some v) :: ms) =
      Function.update (overlay (m :: ms)) a (some v) := by
  funext k
  by_cases hk : k = a
  · simp [overlay_cons, hk]
  · simp [overlay_cons, hk]

/-! ## Writes that do not overwrite -/

/-- Put a pair in unless the key is there. -/
def insertMap (m : K → Option V) (a : K) (v : V) : K → Option V :=
  Function.update m a ((m a).or (some v))

theorem insertMap_of_some {m : K → Option V} {a : K} {w : V} (h : m a = some w) (v : V) :
    insertMap m a v = m := by
  rw [insertMap, h, Option.some_or, ← h, Function.update_eq_self]

theorem insertMap_of_none {m : K → Option V} {a : K} (h : m a = none) (v : V) :
    insertMap m a v = Function.update m a (some v) := by
  rw [insertMap, h, Option.none_or]

/-- Into a map that the key was taken out of. -/
theorem insertMap_erase (m : K → Option V) (a : K) (v : V) :
    insertMap (Function.update m a none) a v = Function.update m a (some v) := by
  simp [insertMap]

theorem Submap.update {m m' : K → Option V} (h : Submap m m') (a : K) (v : V) :
    Submap (Function.update m a (some v)) (Function.update m' a (some v)) := by
  intro k u hk
  rw [Function.update_apply] at hk ⊢
  by_cases hka : k = a
  · rwa [if_pos hka] at hk ⊢
  · rw [if_neg hka] at hk ⊢
    exact h k u hk

/-! ## Lists as maps -/

/-- The map a list of pairs stands for. -/
def toMap (l : List (K × V)) : K → Option V := fun k => l.lookup k

@[simp] theorem toMap_nil : toMap ([] : List (K × V)) = fun _ => none := rfl

theorem toMap_append (l m : List (K × V)) (k : K) :
    toMap (l ++ m) k = (toMap l k).or (toMap m k) := by
  simp [toMap, List.lookup_append]

theorem toMap_cons (a : K) (v : V) (l : List (K × V)) (k : K) :
    toMap ((a, v) :: l) k = if k = a then some v else toMap l k := by
  by_cases h : k = a
  · simp [toMap, h]
  · have hb : (k == a) = false := by simpa using h
    simp [toMap, List.lookup_cons, h, hb]

theorem toMap_eq_none_iff {l : List (K × V)} {k : K} :
    toMap l k = none ↔ k ∉ l.map Prod.fst := by
  simp only [toMap, List.lookup_eq_none_iff, List.mem_map, not_exists, not_and]
  constructor
  · intro h p hp hk
    have hne := h p hp
    simp [hk] at hne
  · intro h p hp
    have hne : ¬ p.1 = k := h p hp
    simpa using fun heq => hne heq.symm

/-- What the map has for a key is a pair of the list. -/
theorem mem_of_toMap {l : List (K × V)} {k : K} {v : V} (h : toMap l k = some v) : (k, v) ∈ l := by
  induction l with
  | nil => cases h
  | cons p l ih =>
      rcases p with ⟨a, w⟩
      rw [toMap_cons] at h
      split at h
      · rename_i hk
        cases h
        rw [hk]
        exact List.mem_cons_self
      · exact List.mem_cons_of_mem _ (ih h)

/-- A list knows no more than a longer one that starts with it. -/
theorem toMap_submap_append (l m : List (K × V)) : Submap (toMap l) (toMap (l ++ m)) := by
  intro k v h
  rw [toMap_append, h, Option.some_or]

/-- Putting in a pair whose key is not to its left. -/
theorem toMap_insert {l m : List (K × V)} {a : K} (v : V) (ha : a ∉ l.map Prod.fst) :
    toMap (l ++ (a, v) :: m) = Function.update (toMap (l ++ m)) a (some v) := by
  funext k
  rw [toMap_append, toMap_cons]
  by_cases hk : k = a
  · have hnone : toMap l k = none := toMap_eq_none_iff.2 (hk ▸ ha)
    simp [hk ▸ hnone, hk]
  · simp [hk, toMap_append]

/-- Moving a pair to the front, past keys that are not its own. -/
theorem toMap_toFront {l m : List (K × V)} {a : K} (v : V) (ha : a ∉ l.map Prod.fst) :
    toMap ((a, v) :: (l ++ m)) = toMap (l ++ (a, v) :: m) := by
  rw [toMap_insert v ha]
  funext k
  rw [toMap_cons, Function.update_apply]

/-- Taking out the only pair of a key. -/
theorem toMap_remove {l m : List (K × V)} {a : K} (v : V)
    (hl : a ∉ l.map Prod.fst) (hm : a ∉ m.map Prod.fst) :
    toMap (l ++ m) = Function.update (toMap (l ++ (a, v) :: m)) a none := by
  funext k
  rw [toMap_append]
  by_cases hk : k = a
  · have h1 : toMap l k = none := toMap_eq_none_iff.2 (hk ▸ hl)
    have h2 : toMap m k = none := toMap_eq_none_iff.2 (hk ▸ hm)
    simp [hk ▸ h1, hk ▸ h2, hk]
  · simp [hk, toMap_append, toMap_cons]

/-- Taking out every pair of a key. -/
theorem toMap_filter_ne (l : List (K × V)) (a : K) :
    toMap (l.filter fun p => p.1 ≠ a) = Function.update (toMap l) a none := by
  induction l with
  | nil => simp
  | cons p l ih =>
      rcases p with ⟨b, v⟩
      funext k
      by_cases hb : b = a
      · rw [List.filter_cons_of_neg (by simp [hb]), ih, Function.update_apply,
          Function.update_apply, toMap_cons]
        by_cases hk : k = a
        · simp [hk]
        · simp [hk, hb]
      · rw [List.filter_cons_of_pos (by simp [hb]), toMap_cons, ih, Function.update_apply,
          Function.update_apply, toMap_cons]
        by_cases hk : k = a
        · simp [hk, Ne.symm hb]
        · simp [hk]

/-! ## Lists that hold each key once -/

/-- Put a pair in unless the key is there. -/
def insertPair (l : List (K × V)) (a : K) (v : V) : List (K × V) :=
  if a ∈ l.map Prod.fst then l else (a, v) :: l

/-- Put a pair in, in the place of any other one of its key. -/
def setPair (l : List (K × V)) (a : K) (v : V) : List (K × V) :=
  (a, v) :: l.filter fun p => p.1 ≠ a

theorem insertPair_nodup {l : List (K × V)} (h : (l.map Prod.fst).Nodup) (a : K) (v : V) :
    ((insertPair l a v).map Prod.fst).Nodup := by
  unfold insertPair
  split
  · exact h
  · exact List.nodup_cons.2 ⟨‹_›, h⟩

theorem setPair_nodup {l : List (K × V)} (h : (l.map Prod.fst).Nodup) (a : K) (v : V) :
    ((setPair l a v).map Prod.fst).Nodup := by
  refine List.nodup_cons.2 ⟨?_, h.sublist (List.filter_sublist.map Prod.fst)⟩
  simp

theorem toMap_insertPair (l : List (K × V)) (a : K) (v : V) :
    toMap (insertPair l a v) = insertMap (toMap l) a v := by
  unfold insertPair
  split
  · rename_i hmem
    rcases Option.ne_none_iff_exists'.1 (mt toMap_eq_none_iff.1 (not_not.2 hmem)) with ⟨w, hw⟩
    exact (insertMap_of_some hw v).symm
  · rename_i hmem
    rw [insertMap_of_none (toMap_eq_none_iff.2 hmem)]
    funext k
    rw [toMap_cons, Function.update_apply]

theorem toMap_setPair (l : List (K × V)) (a : K) (v : V) :
    toMap (setPair l a v) = Function.update (toMap l) a (some v) := by
  funext k
  rw [setPair, toMap_cons, toMap_filter_ne, Function.update_apply, Function.update_apply]
  split
  · rfl
  · rfl

/-- Where a label is not repeated, searching for it finds its element. -/
theorem find?_label {α : Type u} {label : α → K} {l : List α} (hnodup : (l.map label).Nodup)
    {a : α} (ha : a ∈ l) : l.find? (fun b => label b = label a) = some a := by
  induction l with
  | nil => simp at ha
  | cons b l ih =>
      rw [List.map_cons, List.nodup_cons] at hnodup
      rcases List.mem_cons.1 ha with rfl | ha
      · simp
      · have hne : label b ≠ label a := by
          intro heq
          exact hnodup.1 (heq ▸ List.mem_map_of_mem ha)
        rw [List.find?_cons_of_neg (by simpa using hne)]
        exact ih hnodup.2 ha

/-- Where keys are not repeated, a pair of the list is what the map holds. -/
theorem toMap_eq_some_iff {l : List (K × V)} (hnodup : (l.map Prod.fst).Nodup) {k : K} {v : V} :
    toMap l k = some v ↔ (k, v) ∈ l := by
  induction l with
  | nil => simp
  | cons p l ih =>
      rcases p with ⟨a, w⟩
      have hnd := List.nodup_cons.1 hnodup
      rw [toMap_cons]
      by_cases hk : k = a
      · have hnot : (k, v) ∉ l := by
          intro hmem
          exact hnd.1 (List.mem_map.2 ⟨(k, v), hmem, hk⟩)
        simp [hk, hk ▸ hnot, eq_comm]
      · simp [hk, ih hnd.2]

/-- Lists without repeated keys that stand for one map hold the same pairs. -/
theorem perm_of_toMap_eq {l m : List (K × V)} (hl : (l.map Prod.fst).Nodup)
    (hm : (m.map Prod.fst).Nodup) (h : toMap l = toMap m) : l.Perm m := by
  refine (List.perm_ext_iff_of_nodup hl.of_map hm.of_map).2 ?_
  intro p
  rw [← toMap_eq_some_iff hl, h, toMap_eq_some_iff hm]

/-- A map has one list of its pairs in key order. -/
theorem eq_of_toMap_eq {K : Type u} {V : Type v} [LinearOrder K] {l m : List (K × V)}
    (hl : l.Pairwise fun a b => a.1 < b.1) (hm : m.Pairwise fun a b => a.1 < b.1)
    (h : toMap l = toMap m) : l = m := by
  have hperm := perm_of_toMap_eq (nodup_keys_of_sorted hl) (nodup_keys_of_sorted hm) h
  apply hperm.eq_of_pairwise _ hl hm
  intro a b _ _ hab hba
  exact absurd hab (not_lt_of_gt hba)

end Assoc
