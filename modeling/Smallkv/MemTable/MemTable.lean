import Smallkv.MemTable.OrderedMap

/-!
# MemTable.MemTable — the memtable over the skip list

Keys and values arrive as string views and are rebuilt from `data()`, so the
table sees the C string of each. Above the skip list's map the three kinds of
write are three updates of a map (`writeMap`); `lastWrite` is what the header
promises instead, and `lastWriterWins_iff` says on which sequences of writes the
two agree.
-/

namespace Smallkv

open Fallible Assoc

inductive OpType where
  | kDeletion
  | kAdd
  | kUpdate
deriving DecidableEq, Repr

structure MemTable where
  orderedTable : SkipList Bytes Bytes

namespace MemTable

def new : MemTable := ⟨SkipList.new⟩

/-- `Insert`: an update is a deletion followed by an insertion, and a deletion
leaves the key with an empty value. -/
def insert (t : MemTable) (flips : List Bool) (opType : OpType) (key value : Bytes) :
    Exec MemTable :=
  match opType with
  | .kAdd => do
    let list ← t.orderedTable.insert flips (cString key) (cString value)
    pure ⟨list⟩
  | .kUpdate => do
    -- the list ignores the insertion of a key it has, so the old pair goes first
    let list ← t.orderedTable.delete (cString key)
    let list ← list.insert flips (cString key) (cString value)
    pure ⟨list⟩
  | .kDeletion => do
    let present ← t.orderedTable.contains (cString key)
    let list ← if present then t.orderedTable.delete (cString key) else pure t.orderedTable
    let list ← list.insert flips (cString key) []
    pure ⟨list⟩

def add (t : MemTable) (flips : List Bool) (key value : Bytes) : Exec MemTable :=
  t.insert flips .kAdd key value

def update (t : MemTable) (flips : List Bool) (key value : Bytes) : Exec MemTable :=
  t.insert flips .kUpdate key value

def delete (t : MemTable) (flips : List Bool) (key : Bytes) : Exec MemTable :=
  t.insert flips .kDeletion key []

def contains (t : MemTable) (key : Bytes) : Exec Bool := t.orderedTable.contains (cString key)

def get (t : MemTable) (key : Bytes) : Exec (Option Bytes) := t.orderedTable.get (cString key)

def getMemUsage (t : MemTable) : ℤ := t.orderedTable.getMemUsage

def getSize (t : MemTable) : ℤ := t.orderedTable.getSize

/-- The pairs `ConvertToL1SST` hands to the table builder, in order. -/
def entries (t : MemTable) : Exec (List (Bytes × Bytes)) := t.orderedTable.entries

/-! ## The memtable as a map -/

def Represents (t : MemTable) (m : Bytes → Option Bytes) : Prop := t.orderedTable.Represents m

/-- What a write makes of a map from C strings to C strings. -/
def writeMap (m : Bytes → Option Bytes) : OpType → Bytes → Bytes → Bytes → Option Bytes
  | .kAdd, key, value => insertMap m key value
  | .kUpdate, key, value => Function.update m key (some value)
  | .kDeletion, key, _ => Function.update m key (some [])

/-- A write touches its key only. -/
theorem writeMap_of_ne {m : Bytes → Option Bytes} {opType : OpType} {key value k : Bytes}
    (hne : k ≠ key) : writeMap m opType key value k = m k := by
  cases opType <;> simp [writeMap, insertMap, hne]

/-- Whatever its kind, a write leaves its key with a value. -/
theorem writeMap_self_isSome (m : Bytes → Option Bytes) (opType : OpType) (key value : Bytes) :
    (writeMap m opType key value key).isSome = true := by
  cases opType <;> simp [writeMap, insertMap]

section Specs

variable {t : MemTable} {m : Bytes → Option Bytes}

theorem new_represents : Represents new fun _ => none := SkipList.new_represents

theorem Represents.get (h : Represents t m) (key : Bytes) : t.get key = .ok (m (cString key)) :=
  SkipList.Represents.get h _

theorem Represents.contains (h : Represents t m) (key : Bytes) :
    t.contains key = .ok (m (cString key)).isSome :=
  SkipList.Represents.contains h _

theorem Represents.insert (h : Represents t m) (flips : List Bool) (opType : OpType)
    (key value : Bytes) :
    ∃ t', t.insert flips opType key value = .ok t' ∧
      Represents t' (writeMap m opType (cString key) (cString value)) := by
  have hlist : t.orderedTable.Represents m := h
  cases opType with
  | kAdd =>
      rcases hlist.insert flips (cString key) (cString value) with ⟨list, hrun, h'⟩
      exact ⟨⟨list⟩, by simp [MemTable.insert, hrun], h'⟩
  | kUpdate =>
      rcases hlist.delete (cString key) with ⟨list₁, hdel, h₁⟩
      rcases h₁.insert flips (cString key) (cString value) with ⟨list₂, hins, h₂⟩
      rw [insertMap_erase] at h₂
      exact ⟨⟨list₂⟩, by simp [MemTable.insert, hdel, hins], h₂⟩
  | kDeletion =>
      cases hkey : m (cString key) with
      | none =>
          rcases hlist.insert flips (cString key) [] with ⟨list, hins, h'⟩
          have hmap : insertMap m (cString key) [] =
              Function.update m (cString key) (some []) := by
            simp [insertMap, hkey]
          rw [hmap] at h'
          exact ⟨⟨list⟩, by simp [MemTable.insert, hlist.contains, hkey, hins], h'⟩
      | some v =>
          rcases hlist.delete (cString key) with ⟨list₁, hdel, h₁⟩
          rcases h₁.insert flips (cString key) [] with ⟨list₂, hins, h₂⟩
          rw [insertMap_erase] at h₂
          exact ⟨⟨list₂⟩, by simp [MemTable.insert, hlist.contains, hkey, hdel, hins], h₂⟩

/-- Iteration yields the map's pairs in key order; the size and the memory
usage are those of the pairs. -/
theorem Represents.entries (h : Represents t m) :
    ∃ l, t.entries = .ok l ∧ l.Pairwise (fun a b => a.1 < b.1) ∧ toMap l = m ∧
      t.getSize = asInt32 l.length ∧
      t.getMemUsage = (l.map fun e => (e.1.length + e.2.length : ℤ)).sum := by
  rcases SkipList.Represents.entries h with ⟨l, hrun, hsorted, hmap, hsize, husage⟩
  exact ⟨l, hrun, hsorted, hmap, by rw [getSize, SkipList.getSize, hsize], husage⟩

/-- `GetSize` counts the keys of the map, as an `int`. -/
theorem Represents.getSize (h : Represents t m) {keys : Finset Bytes}
    (hkeys : ∀ k, k ∈ keys ↔ (m k).isSome) : t.getSize = asInt32 keys.card := by
  rcases h.entries with ⟨l, -, hsorted, rfl, hsize, -⟩
  have hnodup := nodup_keys_of_sorted hsorted
  have heq : keys = (l.map Prod.fst).toFinset := by
    ext k
    rw [hkeys, List.mem_toFinset, ← not_iff_not, ← toMap_eq_none_iff, Option.not_isSome_iff_eq_none]
  rw [hsize, heq, List.toFinset_card_of_nodup hnodup, List.length_map]

end Specs

/-! ## Runs of writes -/

/-- `Add`, `Update` or `Delete`, with the coin flips of its insertion. -/
inductive Op where
  | add (flips : List Bool) (key value : Bytes)
  | update (flips : List Bool) (key value : Bytes)
  | delete (flips : List Bool) (key : Bytes)

namespace Op

def key : Op → Bytes
  | .add _ key _ => key
  | .update _ key _ => key
  | .delete _ key => key

/-- The value the write is to leave; a deletion leaves the empty string. -/
def written : Op → Bytes
  | .add _ _ value => value
  | .update _ _ value => value
  | .delete _ _ => []

def opType : Op → OpType
  | .add .. => .kAdd
  | .update .. => .kUpdate
  | .delete .. => .kDeletion

/-- Neither the key nor the value holds a NUL byte. -/
def NulFree (op : Op) : Prop := 0 ∉ op.key ∧ 0 ∉ op.written

end Op

def step (t : MemTable) : Op → Exec MemTable
  | .add flips key value => t.add flips key value
  | .update flips key value => t.update flips key value
  | .delete flips key => t.delete flips key

/-- The value of the last write of the key, if there is one. -/
def lastWrite (ops : List Op) (key : Bytes) : Option Bytes :=
  (ops.reverse.find? fun op => op.key = key).map Op.written

@[simp] theorem lastWrite_nil (key : Bytes) : lastWrite [] key = none := rfl

theorem lastWrite_concat (ops : List Op) (op : Op) (key : Bytes) :
    lastWrite (ops ++ [op]) key = if op.key = key then some op.written else lastWrite ops key := by
  by_cases hkey : op.key = key
  · simp [lastWrite, hkey]
  · simp [lastWrite, hkey]

/-- The keys that were written. -/
def writtenKeys (ops : List Op) : Finset Bytes := (ops.map Op.key).toFinset

theorem mem_writtenKeys {ops : List Op} {key : Bytes} :
    key ∈ writtenKeys ops ↔ lastWrite ops key ≠ none := by
  simp [writtenKeys, lastWrite]

/-- The header's promise about a table after the given writes: a key reads as
its last write left it, and the size counts the written keys. -/
structure LastWriterWins (ops : List Op) (t : MemTable) : Prop where
  get : ∀ key, 0 ∉ key → t.get key = .ok (lastWrite ops key)
  contains : ∀ key, 0 ∉ key → t.contains key = .ok (lastWrite ops key).isSome
  size : t.getSize = (writtenKeys ops).card

/-- Every addition finds its key unwritten, or last written with the value
that is added. -/
def AddsAgree (ops : List Op) : Prop :=
  ∀ pre flips key value post, ops = pre ++ .add flips key value :: post →
    lastWrite pre key = none ∨ lastWrite pre key = some value

theorem AddsAgree.prefix {pre post : List Op} (h : AddsAgree (pre ++ post)) : AddsAgree pre := by
  rintro as flips key value bs rfl
  exact h as flips key value (bs ++ post) (by simp)

/-- What a NUL-free write does to the map. -/
theorem step_spec {t : MemTable} {m : Bytes → Option Bytes} (h : Represents t m) {op : Op}
    (hnul : op.NulFree) :
    ∃ t', step t op = .ok t' ∧ Represents t' (writeMap m op.opType op.key op.written) := by
  have hinsert : ∀ flips, ∃ t', t.insert flips op.opType op.key op.written = .ok t' ∧
      Represents t' (writeMap m op.opType op.key op.written) := by
    intro flips
    have hspec := h.insert flips op.opType op.key op.written
    rwa [cString_eq_self hnul.1, cString_eq_self hnul.2] at hspec
  cases op with
  | add flips key value => exact hinsert flips
  | update flips key value => exact hinsert flips
  | delete flips key => exact hinsert flips

/-- The map after a run of writes. -/
def mapAfter (ops : List Op) : Bytes → Option Bytes :=
  ops.foldl (fun m op => writeMap m op.opType op.key op.written) fun _ => none

theorem mapAfter_concat (ops : List Op) (op : Op) :
    mapAfter (ops ++ [op]) = writeMap (mapAfter ops) op.opType op.key op.written := by
  simp [mapAfter]

theorem run_spec {ops : List Op} (hnul : ∀ op ∈ ops, op.NulFree) :
    ∃ t, run step new ops = .ok t ∧ Represents t (mapAfter ops) := by
  induction ops using List.reverseRecOn with
  | nil => exact ⟨new, rfl, new_represents⟩
  | append_singleton ops op ih =>
      rcases ih fun o ho => hnul o (by simp [ho]) with ⟨t, hrun, h⟩
      rcases step_spec h (hnul op (by simp)) with ⟨t', hstep, h'⟩
      exact ⟨t', run_concat_ok.2 ⟨t, hrun, hstep⟩, by rwa [mapAfter_concat]⟩

/-- Writes of all kinds leave the same keys in the map and in the promise. -/
theorem mapAfter_isSome (ops : List Op) (key : Bytes) :
    (mapAfter ops key).isSome = (lastWrite ops key).isSome := by
  induction ops using List.reverseRecOn with
  | nil => rfl
  | append_singleton ops op ih =>
      rw [mapAfter_concat, lastWrite_concat]
      by_cases hkey : op.key = key
      · rw [if_pos hkey, ← hkey, writeMap_self_isSome]
        rfl
      · rw [if_neg hkey, writeMap_of_ne (Ne.symm hkey), ih]

/-- The map is the promised one exactly when additions agree with what they
find, at every point of the run. -/
theorem mapAfter_eq_lastWrite_iff (ops : List Op) :
    (∀ pre post, ops = pre ++ post → mapAfter pre = lastWrite pre) ↔ AddsAgree ops := by
  constructor
  · rintro h pre flips key value post rfl
    have hpre : mapAfter pre = lastWrite pre := h pre _ rfl
    have hpost := congrFun (h (pre ++ [.add flips key value]) post (by simp)) key
    rw [mapAfter_concat, lastWrite_concat, hpre] at hpost
    cases hlast : lastWrite pre key with
    | none => exact Or.inl rfl
    | some v => simpa [writeMap, insertMap, Op.opType, Op.key, Op.written, hlast] using hpost
  · intro h
    have hall : ∀ pre, AddsAgree pre → mapAfter pre = lastWrite pre := by
      intro pre hpre
      induction pre using List.reverseRecOn with
      | nil => rfl
      | append_singleton pre op ih =>
          have heq := ih hpre.prefix
          funext key
          rw [mapAfter_concat, lastWrite_concat, heq]
          by_cases hkey : op.key = key
          · subst hkey
            rw [if_pos rfl]
            cases op with
            | add flips k v =>
                -- the only kind that may leave what it finds
                rcases hpre pre flips k v [] rfl with hnone | hsome
                · simp [writeMap, insertMap, Op.opType, Op.key, Op.written, hnone]
                · simp [writeMap, insertMap, Op.opType, Op.key, Op.written, hsome]
            | update flips k v => simp [writeMap, Op.opType]
            | delete flips k => simp [writeMap, Op.opType, Op.written]
          · rw [if_neg hkey, writeMap_of_ne (Ne.symm hkey)]
    rintro pre post rfl
    exact hall pre h.prefix

/-- NUL-free writes leave keys with a NUL byte unwritten. -/
theorem lastWrite_of_nul {ops : List Op} (hnul : ∀ op ∈ ops, op.NulFree) {key : Bytes}
    (hkey : 0 ∈ key) : lastWrite ops key = none := by
  simp only [lastWrite, Option.map_eq_none_iff, List.find?_eq_none, List.mem_reverse,
    decide_eq_true_eq]
  rintro op hop rfl
  exact (hnul op hop).1 hkey

theorem mapAfter_of_nul {ops : List Op} (hnul : ∀ op ∈ ops, op.NulFree) {key : Bytes}
    (hkey : 0 ∈ key) : mapAfter ops key = none := by
  have hmap := mapAfter_isSome ops key
  rw [lastWrite_of_nul hnul hkey] at hmap
  simpa using hmap

/-- After NUL-free writes only the NUL-free keys matter. -/
theorem mapAfter_eq_of_nulFree {ops : List Op} (hnul : ∀ op ∈ ops, op.NulFree)
    (h : ∀ key, 0 ∉ key → mapAfter ops key = lastWrite ops key) :
    mapAfter ops = lastWrite ops := by
  funext key
  by_cases hkey : 0 ∈ key
  · rw [mapAfter_of_nul hnul hkey, lastWrite_of_nul hnul hkey]
  · exact h key hkey

theorem mem_writtenKeys_iff_mapAfter (ops : List Op) (key : Bytes) :
    key ∈ writtenKeys ops ↔ (mapAfter ops key).isSome := by
  rw [mem_writtenKeys, mapAfter_isSome, Option.isSome_iff_ne_none]

/-- One run keeps the promise exactly when its map is the promised one and its
keys can be counted in an `int`. -/
theorem wins_after_run_iff {ops : List Op} (hnul : ∀ op ∈ ops, op.NulFree) :
    (∃ t, run step new ops = .ok t ∧ LastWriterWins ops t) ↔
      mapAfter ops = lastWrite ops ∧ (writtenKeys ops).card < 2 ^ 31 := by
  rcases run_spec hnul with ⟨t, hrun, hrep⟩
  have hsize := hrep.getSize (mem_writtenKeys_iff_mapAfter ops)
  constructor
  · rintro ⟨t', hrun', hwins⟩
    obtain rfl : t = t' := Except.ok.inj (hrun.symm.trans hrun')
    constructor
    · apply mapAfter_eq_of_nulFree hnul
      intro key hkey
      have hget := hrep.get key
      rw [hwins.get key hkey, cString_eq_self hkey] at hget
      exact (Except.ok.inj hget).symm
    · rw [hwins.size] at hsize
      have hlt := (asInt32_eq_iff (Int.natCast_nonneg _)).1 hsize.symm
      omega
  · rintro ⟨hmap, hcard⟩
    refine ⟨t, hrun, ?_, ?_, ?_⟩
    · intro key hkey
      rw [hrep.get, cString_eq_self hkey, hmap]
    · intro key hkey
      rw [hrep.contains, cString_eq_self hkey, hmap]
    · rw [hsize]
      exact asInt32_of_lt (Int.natCast_nonneg _) (by omega)

/-- The promise holds after every prefix of a sequence of NUL-free writes
exactly when no addition meets its key with another value and the number of
keys fits an `int`. -/
theorem lastWriterWins_iff {ops : List Op} (hnul : ∀ op ∈ ops, op.NulFree) :
    (∀ pre post, ops = pre ++ post →
      ∃ t, run step new pre = .ok t ∧ LastWriterWins pre t) ↔
      AddsAgree ops ∧ (writtenKeys ops).card < 2 ^ 31 := by
  have hpreFree : ∀ pre post, ops = pre ++ post → ∀ op ∈ pre, op.NulFree := by
    rintro pre post rfl op hop
    exact hnul op (by simp [hop])
  rw [← mapAfter_eq_lastWrite_iff]
  constructor
  · intro h
    constructor
    · intro pre post hsplit
      exact ((wins_after_run_iff (hpreFree pre post hsplit)).1 (h pre post hsplit)).1
    · exact ((wins_after_run_iff hnul).1 (h ops [] (by simp))).2
  · rintro ⟨hmap, hcard⟩ pre post hsplit
    -- a prefix writes no more keys than the whole sequence
    have hle : (writtenKeys pre).card ≤ (writtenKeys ops).card := by
      apply Finset.card_le_card
      rw [hsplit]
      simp only [writtenKeys, List.map_append, List.toFinset_append]
      exact Finset.subset_union_left
    exact (wins_after_run_iff (hpreFree pre post hsplit)).2 ⟨hmap pre post hsplit, by omega⟩

/-- The condition is met by writes of all three kinds. -/
theorem lastWriterWins_mixed :
    (∀ pre post, [Op.add [] [97] [120], .update [true] [97] [121], .delete [] [98]] = pre ++ post →
      ∃ t, run step new pre = .ok t ∧ LastWriterWins pre t) ↔
      AddsAgree [Op.add [] [97] [120], .update [true] [97] [121], .delete [] [98]] ∧
        (writtenKeys [Op.add [] [97] [120], .update [true] [97] [121], .delete [] [98]]).card <
          2 ^ 31 :=
  lastWriterWins_iff (by simp [Op.NulFree, Op.key, Op.written])

/-- A second addition of a key is lost. -/
theorem add_present_lost :
    ¬ ∃ t, run step new [.add [] [97] [120], .add [] [97] [121]] = .ok t ∧
      LastWriterWins [.add [] [97] [120], .add [] [97] [121]] t := by
  rintro ⟨t, hrun, hwins⟩
  have hfirst : (run step new [.add [] [97] [120], .add [] [97] [121]] >>= fun t => t.get [97]) =
      .ok (some [120]) := rfl
  rw [hrun, ok_bind, hwins.get [97] (by decide)] at hfirst
  exact absurd hfirst (by decide)

end MemTable

end Smallkv
