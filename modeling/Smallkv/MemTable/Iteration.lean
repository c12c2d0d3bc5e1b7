import Smallkv.Lib.Cursor
import Smallkv.MemTable.Counters
import Smallkv.MemTable.MemTable

/-!
# MemTable.Iteration — iterators enumerate in order

From `MoveToFirst` on, both iterators go through the pairs that are present,
each once and in key order, and then end: the chain of level 0 is what they
follow. The number of steps is the length of the chain; `GetSize` says the same
number unless there are `2 ^ 31` pairs.
-/

namespace Smallkv

open Fallible Assoc SkipList

/-! ## The iterator of a memtable -/

/-- `MemTableIterator` owns an iterator of the skip list. -/
structure MemTableIterator where
  iter : SkipListIterator Bytes Bytes

namespace MemTableIterator

def moveToFirst (it : MemTableIterator) : Exec MemTableIterator := do
  let iter ← it.iter.moveToFirst
  pure ⟨iter⟩

def next (it : MemTableIterator) : Exec MemTableIterator := do
  let iter ← it.iter.next
  pure ⟨iter⟩

def key (it : MemTableIterator) : Exec Bytes := it.iter.key

def value (it : MemTableIterator) : Exec Bytes := it.iter.value

def valid (it : MemTableIterator) : Bool := it.iter.valid

def cursor : Cursor Fault MemTableIterator Bytes Bytes := ⟨valid, key, value, next⟩

end MemTableIterator

def MemTable.newIter (t : MemTable) : MemTableIterator := ⟨⟨t.orderedTable, none⟩⟩

namespace SkipListIterator

variable {Key Value : Type}

def cursor : Cursor Fault (SkipListIterator Key Value) Key Value := ⟨valid, key, value, next⟩

/-- A fresh iterator. -/
def ofList (s : SkipList Key Value) : SkipListIterator Key Value := ⟨s, none⟩

end SkipListIterator

/-! ## Sorted enumerations -/

/-- From `first` on the cursor goes through the present pairs in key order, each
once, and ends after `size` steps. -/
def SortedEnumeration {σ K V : Type} [LT K] (c : Cursor Fault σ K V) (first : Exec σ) (size : ℤ)
    (present : List (K × V)) : Prop :=
  ∃ it l, first = .ok it ∧ c.Yields it l ∧ l.Pairwise (fun a b => a.1 < b.1) ∧
    l.Perm present ∧ (l.length : ℤ) = size

namespace SkipList

open Tower

variable {Key Value : Type}

/-- An iterator on a tower yields it and what the chain has behind it. -/
theorem Chain.yields {it : SkipListIterator Key Value} {us : List (Tower Key Value)}
    (hchain : Chain it.list.heap us) (htall : ∀ t ∈ us, 1 ≤ t.height)
    (hnode : it.node = us.head?.map Tower.ptr) :
    SkipListIterator.cursor.Yields it (us.map entry) := by
  induction us generalizing it with
  | nil =>
      apply Cursor.Yields.done
      simp [SkipListIterator.cursor, SkipListIterator.valid, hnode]
  | cons t us ih =>
      have hcur : it.node = some t.ptr := hnode
      have hnext : it.next = .ok { it with node := us.head?.map Tower.ptr } := by
        have hat := hchain.nextAt_eq (htall t (by simp))
        rw [firstTall_zero fun w hw => htall w (by simp [hw])] at hat
        simp [SkipListIterator.next, hcur, hat]
      have hrest : SkipListIterator.cursor.Yields { it with node := us.head?.map Tower.ptr }
          (us.map entry) :=
        ih hchain.2 (fun w hw => htall w (by simp [hw])) rfl
      have hkey : it.key = .ok t.key := by simp [SkipListIterator.key, hcur, hchain.1]
      have hvalue : it.value = .ok t.value := by simp [SkipListIterator.value, hcur, hchain.1]
      exact .step (by simp [SkipListIterator.cursor, SkipListIterator.valid, hcur]) hkey hvalue
        hnext hrest

variable [LinearOrder Key] [HasSize Key] [HasSize Value] [Inhabited Key] [Inhabited Value]
  {s : SkipList Key Value}

/-- A list that stands for the pairs is gone through in order. -/
theorem Represents.yields {l : List (Key × Value)} (hnodup : (l.map Prod.fst).Nodup)
    (h : Represents s (toMap l)) : ∃ it entries,
      (SkipListIterator.ofList s).moveToFirst = .ok it ∧
      SkipListIterator.cursor.Yields it entries ∧
      entries.Pairwise (fun a b => a.1 < b.1) ∧ entries.Perm l := by
  rcases h with ⟨ts, hwf, hmap⟩
  have hfirst := hwf.chain.nextAt_eq (show 0 < s.headTower.height from Nat.zero_lt_succ 11)
  rw [firstTall_zero hwf.height_pos] at hfirst
  have hmove : (SkipListIterator.ofList s).moveToFirst =
      .ok { list := s, node := ts.head?.map Tower.ptr } := by
    have hhead : nextAt s.heap s.head 0 = .ok (ts.head?.map Tower.ptr) := hfirst
    simp [SkipListIterator.moveToFirst, SkipListIterator.ofList, hhead]
  refine ⟨_, ts.map entry, hmove, hwf.chain.2.yields hwf.height_pos rfl, ?_,
    perm_of_toMap_eq hwf.sorted.nodup_keys hnodup hmap⟩
  rw [List.pairwise_map]
  exact hwf.sorted

/-- The enumeration is always there; its length is the reported size of fewer
than `2 ^ 31` pairs. -/
theorem Represents.sortedEnumeration_iff {l : List (Key × Value)}
    (hnodup : (l.map Prod.fst).Nodup) (h : Represents s (toMap l)) :
    SortedEnumeration SkipListIterator.cursor (SkipListIterator.ofList s).moveToFirst s.getSize l ↔
      l.length < 2 ^ 31 := by
  rw [← getSize_eq_iff (h.counted hnodup).2.1]
  constructor
  · rintro ⟨it, entries, -, -, -, hperm, hlen⟩
    rw [← hlen, hperm.length_eq]
  · intro hsize
    rcases h.yields hnodup with ⟨it, entries, hmove, hyields, hsorted, hperm⟩
    exact ⟨it, entries, hmove, hyields, hsorted, hperm, by rw [hsize, hperm.length_eq]⟩

end SkipList

namespace MemTable

/-! ## The pairs of a memtable -/

/-- What a write makes of the pairs that are present, as C strings. -/
def presentStep (l : List (Bytes × Bytes)) : Op → List (Bytes × Bytes)
  | .add _ key value => insertPair l (cString key) (cString value)
  | .update _ key value => setPair l (cString key) (cString value)
  | .delete _ key => setPair l (cString key) []

def presentPairs (ops : List Op) : List (Bytes × Bytes) := ops.foldl presentStep []

theorem presentPairs_concat (ops : List Op) (op : Op) :
    presentPairs (ops ++ [op]) = presentStep (presentPairs ops) op := by
  simp [presentPairs]

theorem presentPairs_nodup (ops : List Op) : ((presentPairs ops).map Prod.fst).Nodup := by
  induction ops using List.reverseRecOn with
  | nil => exact List.nodup_nil
  | append_singleton ops op ih =>
      rw [presentPairs_concat]
      cases op with
      | add flips key value => exact insertPair_nodup ih _ _
      | update flips key value => exact setPair_nodup ih _ _
      | delete flips key => exact setPair_nodup ih _ _

theorem toMap_presentStep (l : List (Bytes × Bytes)) (op : Op) :
    toMap (presentStep l op) =
      writeMap (toMap l) op.opType (cString op.key) (cString op.written) := by
  cases op with
  | add flips key value => exact toMap_insertPair l _ _
  | update flips key value => exact toMap_setPair l _ _
  | delete flips key => exact toMap_setPair l _ _

/-- What any write does to the map, NUL bytes or not. -/
theorem step_stored {t : MemTable} {m : Bytes → Option Bytes} (h : Represents t m) (op : Op) :
    ∃ t', step t op = .ok t' ∧
      Represents t' (writeMap m op.opType (cString op.key) (cString op.written)) := by
  cases op with
  | add flips key value => exact h.insert flips .kAdd key value
  | update flips key value => exact h.insert flips .kUpdate key value
  | delete flips key => exact h.insert flips .kDeletion key []

theorem run_present (ops : List Op) :
    ∃ t, run step new ops = .ok t ∧ Represents t (toMap (presentPairs ops)) := by
  induction ops using List.reverseRecOn with
  | nil => exact ⟨new, rfl, new_represents⟩
  | append_singleton ops op ih =>
      rcases ih with ⟨t, hrun, h⟩
      rcases step_stored h op with ⟨t', hstep, h'⟩
      rw [presentPairs_concat, toMap_presentStep]
      exact ⟨t', run_concat_ok.2 ⟨t, hrun, hstep⟩, h'⟩

/-- The iterator of a memtable goes where the one of its list goes. -/
theorem sortedEnumeration_iff_list (t : MemTable) (l : List (Bytes × Bytes)) :
    SortedEnumeration MemTableIterator.cursor t.newIter.moveToFirst t.getSize l ↔
      SortedEnumeration SkipListIterator.cursor
        (SkipListIterator.ofList t.orderedTable).moveToFirst t.orderedTable.getSize l := by
  constructor
  · rintro ⟨it, entries, hmove, hyields, hrest⟩
    rcases bind_eq_ok.1 hmove with ⟨iter, hfirst, hit⟩
    cases hit
    refine ⟨iter, entries, hfirst, ?_, hrest⟩
    apply hyields.lift MemTableIterator.iter (fun _ => rfl) (fun _ => rfl) (fun _ => rfl)
    intro a b hnext
    rcases bind_eq_ok.1 hnext with ⟨iter', hnext', hb⟩
    cases hb
    exact hnext'
  · rintro ⟨iter, entries, hmove, hyields, hrest⟩
    refine ⟨⟨iter⟩, entries, bind_eq_ok.2 ⟨iter, hmove, rfl⟩, ?_, hrest⟩
    apply hyields.lift MemTableIterator.mk (fun _ => rfl) (fun _ => rfl) (fun _ => rfl)
    intro a b hnext
    exact bind_eq_ok.2 ⟨b, hnext, rfl⟩

end MemTable

/-- Iteration over a skip list or a memtable, after any calls, is a sorted
enumeration of the present pairs in `GetSize()` steps exactly when there are
fewer than `2 ^ 31` of them. -/
theorem sorted_enumeration_iff {Key Value : Type} [LinearOrder Key] [HasSize Key] [HasSize Value]
    [Inhabited Key] [Inhabited Value] (calls : List (SkipList.Op Key Value))
    (writes : List MemTable.Op) :
    ((∃ s log, run SkipList.step (SkipList.new, []) calls = .ok (s, log) ∧
        SortedEnumeration SkipListIterator.cursor (SkipListIterator.ofList s).moveToFirst
          s.getSize (SkipList.presentPairs calls)) ↔
      (SkipList.presentPairs calls).length < 2 ^ 31) ∧
    ((∃ t, run MemTable.step MemTable.new writes = .ok t ∧
        SortedEnumeration MemTableIterator.cursor t.newIter.moveToFirst t.getSize
          (MemTable.presentPairs writes)) ↔
      (MemTable.presentPairs writes).length < 2 ^ 31) := by
  constructor
  · rcases SkipList.run_counted calls with ⟨s, log, hrun, hrep⟩
    have hiff := hrep.sortedEnumeration_iff (SkipList.presentPairs_nodup calls)
    constructor
    · rintro ⟨s', log', hrun', henum⟩
      obtain ⟨rfl, -⟩ := Prod.mk.inj (Except.ok.inj (hrun.symm.trans hrun'))
      exact hiff.1 henum
    · intro hfew
      exact ⟨s, log, hrun, hiff.2 hfew⟩
  · rcases MemTable.run_present writes with ⟨t, hrun, hrep⟩
    have hiff := (t.sortedEnumeration_iff_list _).trans
      (SkipList.Represents.sortedEnumeration_iff (MemTable.presentPairs_nodup writes) hrep)
    constructor
    · rintro ⟨t', hrun', henum⟩
      obtain rfl : t = t' := Except.ok.inj (hrun.symm.trans hrun')
      exact hiff.1 henum
    · intro hfew
      exact ⟨t, hrun, hiff.2 hfew⟩

/-- The iteration over `2 ^ 31` pairs takes more steps than `GetSize` says. -/
theorem enumeration_longer_than_size :
    ¬ ∃ s log, run SkipList.step (SkipList.new, [])
        ((fixedPairs (2 ^ 31)).map fun p => SkipList.Op.insert [] p.1 p.2) = .ok (s, log) ∧
      SortedEnumeration SkipListIterator.cursor (SkipListIterator.ofList s).moveToFirst s.getSize
        (SkipList.presentPairs
          ((fixedPairs (2 ^ 31)).map fun p => SkipList.Op.insert [] p.1 p.2)) := by
  rcases SkipList.run_counted ((fixedPairs (2 ^ 31)).map fun p => SkipList.Op.insert [] p.1 p.2)
    with ⟨s, log, hrun, hrep⟩
  rintro ⟨s', log', hrun', henum⟩
  obtain ⟨rfl, -⟩ := Prod.mk.inj (Except.ok.inj (hrun.symm.trans hrun'))
  have hfew := (hrep.sortedEnumeration_iff (SkipList.presentPairs_nodup _)).1 henum
  rw [length_presentPairs_fixed (by norm_num)] at hfew
  exact absurd hfew (by norm_num)

end Smallkv
