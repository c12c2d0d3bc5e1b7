import Smallkv.Table.Records

/-!
# Table.FrontCoding — reading a block with the previous key only

A reader from left to right needs no group counter: the first record of a group
shares nothing, and every other leaves out bytes of the key just before, which
the reader has. Its state is that key, the second half of the writer's state, so
the records are a prefix code for it as well, and what it learns besides the
pairs is how many bytes each record leaves out.
-/

namespace Smallkv

open Fallible PrefixCode

/-- What a record says: the number of bytes taken from the key before it, the
key and the value. -/
structure FrontCoded where
  sharedKeyLen : ℕ
  key : Bytes
  value : Bytes
deriving DecidableEq

/-- `shared_key_len | unshared_key_len | value_len | unshared_key | value`, behind
the key `preKey`. -/
def takeFrontCoded (preKey stream : Bytes) : Option (FrontCoded × Bytes) := do
  let (sharedKeyLen, stream) ← takeFixed32 stream
  let (unsharedKeyLen, stream) ← takeFixed32 stream
  let (valueLen, stream) ← takeFixed32 stream
  let (unshared, stream) ← takeBytes unsharedKeyLen stream
  let (value, rest) ← takeBytes valueLen stream
  pure (⟨sharedKeyLen, preKey.take sharedKeyLen ++ unshared, value⟩, rest)

/-- All records of `data()`, from left to right. -/
def readFrontCoded (data : Bytes) : Option (List FrontCoded) :=
  decodeAll takeFrontCoded (fun _ record => record.key) [] data

/-- The key of the record before the `i`-th one. -/
def keyBefore (records : List FrontCoded) : ℕ → Bytes
  | 0 => []
  | i + 1 => ((records[i]?).map FrontCoded.key).getD []

/-- `data` is read as records that hold the pairs with a non-empty key, none of
which takes more than the key before it has, and every sixteenth nothing. -/
def LosslesslyCoded (entries : List (Bytes × Bytes)) (data : Bytes) : Prop :=
  ∃ records, readFrontCoded data = some records ∧
    (records.map fun record => (record.key, record.value)) = entries.filter (fun e => e.1 ≠ []) ∧
    ∀ i record, records[i]? = some record →
      record.sharedKeyLen ≤ (keyBefore records i).length ∧
        (i % kRestartInterval = 0 → record.sharedKeyLen = 0)

/-! ## One record -/

/-- The record of a pair, in the state it is written in. -/
def frontCoded (s : RecordState) (entry : Bytes × Bytes) : FrontCoded :=
  ⟨recordShared (s.1 % kRestartInterval = 0) s.2 entry.1, entry.1, entry.2⟩

theorem recordShared_le_sharedLen (needFullkey : Bool) (preKey key : Bytes) :
    recordShared needFullkey preKey key ≤ sharedLen key preKey := by
  unfold recordShared
  split
  · exact Nat.zero_le _
  · exact le_rfl

/-- The bytes left out and the bytes kept are the key. -/
theorem take_recordShared (needFullkey : Bool) (preKey key : Bytes) :
    preKey.take (recordShared needFullkey preKey key) ++
      key.drop (recordShared needFullkey preKey key) = key := by
  rw [← take_eq_of_le_sharedLen (recordShared_le_sharedLen needFullkey preKey key),
    List.take_append_drop]

theorem takeFrontCoded_writeRecord (s : RecordState) {entry : Bytes × Bytes} (rest : Bytes)
    (h : FitsRecord entry) :
    takeFrontCoded s.2 (writeRecord s entry ++ rest) = some (frontCoded s entry, rest) := by
  have hkey : entry.1.length < 2 ^ 32 := h.1
  have hle := recordShared_le (s.1 % kRestartInterval = 0) s.2 entry.1
  have hdrop : (entry.1.drop (recordShared (s.1 % kRestartInterval = 0) s.2 entry.1)).length <
      2 ^ 32 := by
    rw [List.length_drop]
    omega
  simp only [takeFrontCoded, writeRecord, record_eq, recordBytes, List.append_assoc,
    takeFixed32_append (hle.trans_lt hkey), takeFixed32_append hdrop, takeFixed32_append h.2,
    takeBytes_append rfl, Option.bind_eq_bind, Option.bind_some, Option.pure_def,
    take_recordShared, frontCoded]

theorem readFrontCoded_writeRecords {entries : List (Bytes × Bytes)}
    (h : ∀ entry ∈ entries, FitsRecord entry) :
    readFrontCoded (writeRecords entries) =
      some (mapAll frontCoded RecordState.next RecordState.start entries) := by
  refine decodeAll_mapAll (fun s entry rest => takeFrontCoded_writeRecord s rest)
    (fun _ _ => rfl) ?_ RecordState.start h
  intro s entry hnil
  have hlen := (writeRecord_length s entry).1
  rw [hnil] at hlen
  simp at hlen

/-! ## All records -/

/-- The records of a block. -/
def frontRecords (entries : List (Bytes × Bytes)) : List FrontCoded :=
  mapAll frontCoded RecordState.next RecordState.start entries

theorem map_frontRecords (entries : List (Bytes × Bytes)) :
    ((frontRecords entries).map fun record => (record.key, record.value)) = entries := by
  apply List.ext_getElem?
  intro i
  rw [List.getElem?_map, frontRecords, getElem?_mapAll, Option.map_map]
  exact Option.map_id'

/-- What the reader holds before the `i`-th record is what the writer held. -/
theorem keyBefore_frontRecords (entries : List (Bytes × Bytes)) {i : ℕ}
    (hi : i ≤ entries.length) :
    keyBefore (frontRecords entries) i =
      (nextAll RecordState.next RecordState.start (entries.take i)).2 := by
  cases i with
  | zero => rfl
  | succ i =>
      rw [keyBefore, frontRecords, getElem?_mapAll, List.getElem?_eq_getElem hi,
        List.take_add_one, List.getElem?_eq_getElem hi]
      exact (nextAll_snd_concat _ _).symm

theorem frontRecords_shared {entries : List (Bytes × Bytes)} {i : ℕ} {record : FrontCoded}
    (h : (frontRecords entries)[i]? = some record) :
    record.sharedKeyLen ≤ (keyBefore (frontRecords entries) i).length ∧
      (i % kRestartInterval = 0 → record.sharedKeyLen = 0) := by
  have hrecord := h
  rw [frontRecords, getElem?_mapAll, Option.map_eq_some_iff] at hrecord
  rcases hrecord with ⟨entry, hentry, rfl⟩
  have hi : i < entries.length := (List.getElem?_eq_some_iff.1 hentry).1
  have hcount : (nextAll RecordState.next RecordState.start (entries.take i)).1 = i := by
    rw [nextAll_fst, List.length_take, min_eq_left hi.le]
  rw [keyBefore_frontRecords entries hi.le]
  constructor
  · exact (recordShared_le_sharedLen _ _ _).trans (sharedLen_le_right _ _)
  · intro hfirst
    simp [frontCoded, recordShared, hcount, hfirst]

/-! ## Runs of additions -/

/-- `add` for every pair, in order. -/
def DataBlockBuilder.addPairs (b : DataBlockBuilder) (entries : List (Bytes × Bytes)) :
    DataBlockBuilder :=
  entries.foldl (fun b entry => b.add entry.1 entry.2) b

/-- Pairs with an empty key leave no trace. -/
theorem addPairs_empty (entries : List (Bytes × Bytes)) :
    DataBlockBuilder.empty.addPairs entries = blockOf (entries.filter fun e => e.1 ≠ []) := by
  rw [DataBlockBuilder.addPairs, blockOf, List.foldl_filter]
  congr 1
  funext b entry
  by_cases hkey : entry.1 = []
  · simp [DataBlockBuilder.add, hkey]
  · simp [hkey]

theorem losslesslyCoded_addPairs {entries : List (Bytes × Bytes)}
    (hlen : ∀ entry ∈ entries, entry.1.length < 2 ^ 31 ∧ entry.2.length < 2 ^ 31) :
    LosslesslyCoded entries (DataBlockBuilder.empty.addPairs entries).data := by
  have hkeys : ∀ e ∈ entries.filter (fun e => e.1 ≠ []), e.1 ≠ [] := by
    intro e he
    simpa using (List.mem_filter.1 he).2
  have hfits : ∀ e ∈ entries.filter (fun e => e.1 ≠ []), FitsRecord e := by
    intro e he
    have h := hlen e (List.mem_filter.1 he).1
    exact ⟨by omega, by omega⟩
  rw [addPairs_empty, (blockFields hkeys).data]
  exact ⟨_, readFrontCoded_writeRecords hfits, map_frontRecords _,
    fun _ _ => frontRecords_shared⟩

/-- Front coding is lossless, in a fresh builder and in a cleared one. -/
theorem front_coding_lossless (entries : List (Bytes × Bytes)) (b : DataBlockBuilder)
    (hlen : ∀ entry ∈ entries, entry.1.length < 2 ^ 31 ∧ entry.2.length < 2 ^ 31) :
    LosslesslyCoded entries (DataBlockBuilder.empty.addPairs entries).data ∧
      LosslesslyCoded entries (b.clear.addPairs entries).data :=
  ⟨losslesslyCoded_addPairs hlen, losslesslyCoded_addPairs hlen⟩

/-- Neighbours that share a prefix, an empty key between them, and a builder that
was in use. -/
theorem front_coding_lossless_four :
    LosslesslyCoded [(ascii "abc", ascii "1"), ([], ascii "2"), (ascii "abd", []),
        (ascii "abd", ascii "3")]
      (DataBlockBuilder.empty.addPairs [(ascii "abc", ascii "1"), ([], ascii "2"),
        (ascii "abd", []), (ascii "abd", ascii "3")]).data ∧
    LosslesslyCoded [(ascii "abc", ascii "1"), ([], ascii "2"), (ascii "abd", []),
        (ascii "abd", ascii "3")]
      ((blockOf [(ascii "x", ascii "y")]).clear.addPairs [(ascii "abc", ascii "1"),
        ([], ascii "2"), (ascii "abd", []), (ascii "abd", ascii "3")]).data :=
  front_coding_lossless _ _ (by decide)

end Smallkv
