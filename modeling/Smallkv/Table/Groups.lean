import Smallkv.Lib.Extents
import Smallkv.Table.SSTParser

/-!
# Table.Groups — what is in a block, group by group

A data block builder holds the records of its pairs, and where every group of
`kRestartInterval` records starts. A group starts with a full key, so it is
written as if it were a block of its own (`writeRecords_restart`), and the record
section is the concatenation of the groups. Nothing of this depends on how many
pairs there are: the counter wraps around at a multiple of the interval.
-/

namespace Smallkv

open Fallible PrefixCode Extents

/-! ## The pairs of a block -/

/-- The builder of a block with these pairs. -/
def blockOf (entries : List (Bytes × Bytes)) : DataBlockBuilder :=
  entries.foldl (fun b entry => b.add entry.1 entry.2) DataBlockBuilder.empty

theorem blockOf_concat (entries : List (Bytes × Bytes)) (entry : Bytes × Bytes) :
    blockOf (entries ++ [entry]) = (blockOf entries).add entry.1 entry.2 := by
  simp [blockOf]

/-- The number of records and the last key. -/
theorem nextAll_fst (entries : List (Bytes × Bytes)) :
    (nextAll RecordState.next RecordState.start entries).1 = entries.length := by
  induction entries using List.reverseRecOn with
  | nil => rfl
  | append_singleton entries entry ih =>
      rw [nextAll, List.foldl_append, List.foldl_cons, List.foldl_nil, List.length_append,
        List.length_singleton, ← ih]
      rfl

theorem nextAll_snd_concat (entries : List (Bytes × Bytes)) (entry : Bytes × Bytes) :
    (nextAll RecordState.next RecordState.start (entries ++ [entry])).2 = entry.1 := by
  rw [nextAll, List.foldl_append]
  rfl

/-! ## Groups -/

/-- The number of groups, the last of which may be incomplete. -/
def groupNum (entries : List (Bytes × Bytes)) : ℕ :=
  (entries.length + (kRestartInterval - 1)) / kRestartInterval

/-- The pairs of a group. -/
def group (entries : List (Bytes × Bytes)) (i : ℕ) : List (Bytes × Bytes) :=
  (entries.drop (kRestartInterval * i)).take kRestartInterval

/-- Where it starts. -/
def groupStart (entries : List (Bytes × Bytes)) (i : ℕ) : ℕ :=
  (writeRecords (entries.take (kRestartInterval * i))).length

/-- The bytes of the groups. -/
def groupParts (entries : List (Bytes × Bytes)) : List Bytes :=
  (List.range (groupNum entries)).map fun i => writeRecords (group entries i)

theorem groupNum_concat (entries : List (Bytes × Bytes)) (entry : Bytes × Bytes) :
    groupNum (entries ++ [entry]) =
      if entries.length % kRestartInterval = 0 then groupNum entries + 1 else groupNum entries := by
  unfold groupNum kRestartInterval
  rw [List.length_append, List.length_singleton]
  split
  · omega
  · omega

/-- A group starts behind what comes in front of it, which is all there. -/
theorem lt_of_lt_groupNum {entries : List (Bytes × Bytes)} {i : ℕ} (hi : i < groupNum entries) :
    kRestartInterval * i < entries.length := by
  unfold groupNum kRestartInterval at *
  omega

theorem groupNum_le (entries : List (Bytes × Bytes)) : groupNum entries ≤ entries.length := by
  unfold groupNum kRestartInterval
  omega

theorem length_le_groupNum (entries : List (Bytes × Bytes)) :
    entries.length ≤ kRestartInterval * groupNum entries := by
  unfold groupNum kRestartInterval
  omega

theorem groupStart_concat {entries : List (Bytes × Bytes)} (entry : Bytes × Bytes) {i : ℕ}
    (hi : kRestartInterval * i ≤ entries.length) :
    groupStart (entries ++ [entry]) i = groupStart entries i := by
  rw [groupStart, groupStart, List.take_append_of_le_length hi]

/-! ## The state of the builder -/

/-- The counter is at a multiple of the interval where the number of pairs is. -/
theorem tmod_asInt32_eq_zero (n : ℕ) :
    (asInt32 n).tmod kRestartInterval = 0 ↔ n % kRestartInterval = 0 := by
  rw [← Int.dvd_iff_tmod_eq_zero]
  unfold asInt32 kRestartInterval
  rw [Int.bmod_def]
  split
  · omega
  · omega

/-- What the builder of a block with these pairs holds. -/
structure BlockFields (entries : List (Bytes × Bytes)) : Prop where
  recordNum : (blockOf entries).recordNum = asInt32 entries.length
  preKey : (blockOf entries).preKey = (nextAll RecordState.next RecordState.start entries).2
  data : (blockOf entries).data = writeRecords entries
  groupOffsets : (blockOf entries).recordGroupOffset =
    (List.range (groupNum entries)).map fun i => asInt32 (groupStart entries i)

theorem BlockFields.needFullkey_iff {entries : List (Bytes × Bytes)} (h : BlockFields entries) :
    (blockOf entries).recordNum.tmod kRestartInterval = 0 ↔
      entries.length % kRestartInterval = 0 := by
  rw [h.recordNum, tmod_asInt32_eq_zero]

theorem blockFields {entries : List (Bytes × Bytes)} (hkeys : ∀ entry ∈ entries, entry.1 ≠ []) :
    BlockFields entries := by
  induction entries using List.reverseRecOn with
  | nil => exact ⟨rfl, rfl, rfl, rfl⟩
  | append_singleton entries entry ih =>
      have h := ih fun e he => hkeys e (by simp [he])
      have hkey : entry.1 ≠ [] := hkeys entry (by simp)
      constructor
      case recordNum =>
        rw [blockOf_concat, DataBlockBuilder.add, if_neg hkey]
        simp only [h.recordNum, asInt32_add]
        simp
      case preKey =>
        rw [blockOf_concat, DataBlockBuilder.add, if_neg hkey, nextAll_snd_concat]
      case data =>
        rw [blockOf_concat, DataBlockBuilder.add, if_neg hkey, writeRecords, encodeAll_concat,
          ← writeRecords, ← h.data, writeRecord, ← h.preKey, nextAll_fst]
        simp only [h.needFullkey_iff]
      case groupOffsets =>
        have hold : ∀ i ∈ List.range (groupNum entries),
            asInt32 (groupStart entries i) = asInt32 (groupStart (entries ++ [entry]) i) := by
          intro i hi
          rw [groupStart_concat entry (lt_of_lt_groupNum (List.mem_range.1 hi)).le]
        rw [blockOf_concat, DataBlockBuilder.add, if_neg hkey, groupNum_concat]
        simp only [h.needFullkey_iff, h.groupOffsets]
        split
        · -- a new group, which starts at the end of the records
          rename_i hfull
          have hend : kRestartInterval * groupNum entries = entries.length := by
            unfold groupNum kRestartInterval at *
            omega
          rw [List.range_succ, List.map_append, List.map_congr_left hold, List.map_singleton,
            groupStart_concat entry hend.le, groupStart, hend, List.take_length,
            DataBlockBuilder.size, h.data]
        · exact List.map_congr_left hold

/-! ## Groups are blocks -/

/-- Records are written alike where the place in the group is the same and, but at
its start, the key before. -/
theorem writeRecords_congr {s t : RecordState}
    (hplace : s.1 % kRestartInterval = t.1 % kRestartInterval)
    (hkey : s.1 % kRestartInterval = 0 ∨ s.2 = t.2) (entries : List (Bytes × Bytes)) :
    encodeAll writeRecord RecordState.next s entries =
      encodeAll writeRecord RecordState.next t entries := by
  induction entries generalizing s t with
  | nil => rfl
  | cons entry entries ih =>
      have hrecord : writeRecord s entry = writeRecord t entry := by
        unfold writeRecord
        rw [← hplace]
        rcases hkey with hfirst | hsame
        · simp [hfirst, DataBlockBuilder.record]
        · rw [hsame]
      have hnext : (s.next entry).1 % kRestartInterval = (t.next entry).1 % kRestartInterval := by
        show (s.1 + 1) % kRestartInterval = (t.1 + 1) % kRestartInterval
        rw [Nat.add_mod, hplace, ← Nat.add_mod]
      rw [encodeAll_cons, encodeAll_cons, hrecord, ih hnext (Or.inr rfl)]

/-- A group is written as if it were a block of its own. -/
theorem writeRecords_restart {front : List (Bytes × Bytes)}
    (hfront : front.length % kRestartInterval = 0) (entries : List (Bytes × Bytes)) :
    writeRecords (front ++ entries) = writeRecords front ++ writeRecords entries := by
  rw [writeRecords, encodeAll_append, ← writeRecords]
  congr 1
  refine writeRecords_congr ?_ (Or.inl ?_) entries
  · rw [nextAll_fst, hfront]
    rfl
  · rw [nextAll_fst, hfront]

/-- The groups in front of one, and then itself. -/
theorem take_group (entries : List (Bytes × Bytes)) {i : ℕ}
    (hi : kRestartInterval * i ≤ entries.length) :
    writeRecords (entries.take (kRestartInterval * (i + 1))) =
      writeRecords (entries.take (kRestartInterval * i)) ++ writeRecords (group entries i) := by
  rw [Nat.mul_succ, List.take_add, writeRecords_restart, group]
  rw [List.length_take, min_eq_left hi, Nat.mul_mod_right]

theorem getElem?_groupParts {entries : List (Bytes × Bytes)} {i : ℕ} (hi : i < groupNum entries) :
    (groupParts entries)[i]? = some (writeRecords (group entries i)) := by
  rw [groupParts, List.getElem?_map, List.getElem?_range hi]
  rfl

theorem flatten_take_groupParts (entries : List (Bytes × Bytes)) {i : ℕ}
    (hi : i ≤ groupNum entries) :
    ((groupParts entries).take i).flatten =
      writeRecords (entries.take (kRestartInterval * i)) := by
  induction i with
  | zero => rfl
  | succ i ih =>
      rw [List.take_add_one, getElem?_groupParts hi, List.flatten_append, ih (by omega),
        take_group entries (lt_of_lt_groupNum hi).le]
      simp

/-- The record section is its groups, one after the other. -/
theorem flatten_groupParts (entries : List (Bytes × Bytes)) :
    (groupParts entries).flatten = writeRecords entries := by
  have hlen : (groupParts entries).length = groupNum entries := by
    rw [groupParts, List.length_map, List.length_range]
  have h := flatten_take_groupParts entries le_rfl
  rwa [← hlen, List.take_length, hlen, List.take_of_length_le (length_le_groupNum entries)] at h

/-- Where the groups are in it. -/
theorem getElem?_groupRanges (entries : List (Bytes × Bytes)) {i : ℕ} (hi : i < groupNum entries) :
    (extents 0 (groupParts entries))[i]? =
      some (groupStart entries i, (writeRecords (group entries i)).length) := by
  rw [getElem?_extents, flatten_take_groupParts entries hi.le, getElem?_groupParts hi, groupStart]
  simp

theorem lt_groupNum_of_range {entries : List (Bytes × Bytes)} {i : ℕ} {range : ℕ × ℕ}
    (h : (extents 0 (groupParts entries))[i]? = some range) : i < groupNum entries := by
  simpa [groupParts] using (List.getElem?_eq_some_iff.1 h).1

theorem groupStart_succ (entries : List (Bytes × Bytes)) {i : ℕ} (hi : i < groupNum entries) :
    groupStart entries (i + 1) =
      groupStart entries i + (writeRecords (group entries i)).length := by
  rw [groupStart, take_group entries (lt_of_lt_groupNum hi).le, List.length_append, groupStart]

theorem groupStart_groupNum (entries : List (Bytes × Bytes)) :
    groupStart entries (groupNum entries) = (writeRecords entries).length := by
  rw [groupStart, List.take_of_length_le (length_le_groupNum entries)]

end Smallkv
