import Smallkv.Table.Layout

/-!
# Table.Records — writing and reading the records of a group

`data_block_builder.h` says of `shared_key_len` that it is what a key shares with
the first key of its group, and the parser repairs keys with that one. The
builder compresses against the key just before, which is the same for the first
two records of a group only. Nor does the parser come that far: `parse_record`
takes all three lengths from the first field, which in the first record of a
group is zero.
-/

namespace Smallkv

open Fallible PrefixCode

/-! ## Shared prefixes -/

theorem sharedLen_le_right (a b : Bytes) : sharedLen a b ≤ b.length := by
  have hle := sharedLen_le a b
  have htake := congrArg List.length (take_sharedLen a b)
  rw [List.length_take, List.length_take] at htake
  omega

/-- What is shared is the same in both. -/
theorem take_eq_of_le_sharedLen {a b : Bytes} {n : ℕ} (h : n ≤ sharedLen a b) :
    a.take n = b.take n := by
  have htake := congrArg (List.take n) (take_sharedLen a b)
  rwa [List.take_take, List.take_take, min_eq_left h] at htake

/-! ## The base key -/

/-- `shared_key_len(4B) | unshared_key_len(4B) | value_len(4B) | unshared_key | value`. -/
def recordBytes (sharedKeyLen : ℕ) (unshared value : Bytes) : Bytes :=
  encodeFixed32 sharedKeyLen ++ encodeFixed32 unshared.length ++ encodeFixed32 value.length ++
    unshared ++ value

/-- The number of bytes that a record leaves out. -/
def recordShared (needFullkey : Bool) (preKey key : Bytes) : ℕ :=
  if needFullkey then 0 else sharedLen key preKey

theorem recordShared_le (needFullkey : Bool) (preKey key : Bytes) :
    recordShared needFullkey preKey key ≤ key.length := by
  unfold recordShared
  split
  · exact Nat.zero_le _
  · exact sharedLen_le key preKey

theorem record_eq (needFullkey : Bool) (preKey key value : Bytes) :
    DataBlockBuilder.record needFullkey preKey key value =
      recordBytes (recordShared needFullkey preKey key)
        (key.drop (recordShared needFullkey preKey key)) value := by
  unfold DataBlockBuilder.record recordShared recordBytes
  split
  · rw [List.drop_zero]
  · rw [List.length_drop]

/-- The record shares no more with the key `first` than it has in common with it,
and what it shares, with the rest of the key behind it, is the key. -/
def RestoredFrom (first : Bytes) (entry : Bytes × Bytes) (record : Bytes) : Prop :=
  ∃ sharedKeyLen unshared, record = recordBytes sharedKeyLen unshared entry.2 ∧
    sharedKeyLen ≤ sharedLen entry.1 first ∧ first.take sharedKeyLen ++ unshared = entry.1

/-- A record that leaves out the first bytes of its key can be restored from the
keys that start with them. -/
theorem restoredFrom_iff {first : Bytes} {entry : Bytes × Bytes} {n : ℕ}
    (hn : n ≤ entry.1.length) :
    RestoredFrom first entry (recordBytes n (entry.1.drop n) entry.2) ↔
      n ≤ sharedLen entry.1 first := by
  constructor
  · rintro ⟨m, unshared, hrecord, hm, hkey⟩
    -- the lengths leave no choice
    have hlen := congrArg List.length hrecord
    simp only [recordBytes, List.length_append, length_encodeFixed32, List.length_drop] at hlen
    have hkeyLen := congrArg List.length hkey
    rw [List.length_append, List.length_take] at hkeyLen
    have hfirst := sharedLen_le_right entry.1 first
    omega
  · intro hle
    refine ⟨n, entry.1.drop n, rfl, hle, ?_⟩
    rw [← take_eq_of_le_sharedLen hle, List.take_append_drop]

/-- Every record that is added to a block can be restored from the first key of its
group. -/
def RestoredFromFirst (entries : List (Bytes × Bytes)) : Prop :=
  ∀ es entry first, es ++ [entry] <+: entries →
    entries[kRestartInterval * (es.length / kRestartInterval)]? = some first →
      ∃ record, ((blockOf es).add entry.1 entry.2).data = (blockOf es).data ++ record ∧
        RestoredFrom first.1 entry record

/-- Inside a group no key shares more with the key before it than with the first
key of the group. -/
def SharedWithFirst (entries : List (Bytes × Bytes)) : Prop :=
  ∀ es prev entry first, es ++ [prev, entry] <+: entries →
    (es.length + 1) % kRestartInterval ≠ 0 →
      entries[kRestartInterval * ((es.length + 1) / kRestartInterval)]? = some first →
        sharedLen entry.1 prev.1 ≤ sharedLen entry.1 first.1

/-- The record that `add` puts behind the others. -/
theorem add_data {es : List (Bytes × Bytes)} (h : BlockFields es) {entry : Bytes × Bytes}
    (hkey : entry.1 ≠ []) : ((blockOf es).add entry.1 entry.2).data = (blockOf es).data ++
      DataBlockBuilder.record (es.length % kRestartInterval = 0) (blockOf es).preKey entry.1
        entry.2 := by
  rw [DataBlockBuilder.add, if_neg hkey]
  simp only [h.needFullkey_iff]

theorem preKey_concat {es : List (Bytes × Bytes)} {prev : Bytes × Bytes}
    (hkey : prev.1 ≠ []) : (blockOf (es ++ [prev])).preKey = prev.1 := by
  rw [blockOf_concat, DataBlockBuilder.add, if_neg hkey]

/-- Whether a record can be restored from the first key of its group. -/
theorem add_restoredFrom_iff {es : List (Bytes × Bytes)} (h : BlockFields es)
    {entry : Bytes × Bytes} (hkey : entry.1 ≠ []) (first : Bytes) :
    (∃ record, ((blockOf es).add entry.1 entry.2).data = (blockOf es).data ++ record ∧
        RestoredFrom first entry record) ↔
      recordShared (es.length % kRestartInterval = 0) (blockOf es).preKey entry.1 ≤
        sharedLen entry.1 first := by
  rw [add_data h hkey, record_eq]
  constructor
  · rintro ⟨record, heq, hrestored⟩
    rw [← List.append_cancel_left heq] at hrestored
    exact (restoredFrom_iff (recordShared_le _ _ _)).1 hrestored
  · intro hle
    exact ⟨_, rfl, (restoredFrom_iff (recordShared_le _ _ _)).2 hle⟩

/-- The keys of a block can be restored from the first keys of their groups exactly
when none of them shares more with the key before it. -/
theorem restoredFromFirst_iff {entries : List (Bytes × Bytes)}
    (hkeys : ∀ entry ∈ entries, entry.1 ≠ []) :
    RestoredFromFirst entries ↔ SharedWithFirst entries := by
  constructor
  · intro hrestored es prev entry first hpre hinside hfirst
    have hmem : ∀ e ∈ es ++ [prev, entry], e.1 ≠ [] := fun e he => hkeys e (hpre.subset he)
    have hfields : BlockFields (es ++ [prev]) :=
      blockFields fun e he => hmem e (by simp only [List.mem_append, List.mem_cons] at he ⊢; tauto)
    have hlen : (es ++ [prev]).length = es.length + 1 := by simp
    have hrecord := hrestored (es ++ [prev]) entry first (by simpa using hpre)
      (by rw [hlen]; exact hfirst)
    rw [add_restoredFrom_iff hfields (hmem entry (by simp)), recordShared, hlen,
      preKey_concat (hmem prev (by simp))] at hrecord
    simpa [hinside] using hrecord
  · intro hshared es entry first hpre hfirst
    have hmem : ∀ e ∈ es ++ [entry], e.1 ≠ [] := fun e he => hkeys e (hpre.subset he)
    have hfields : BlockFields es := blockFields fun e he => hmem e (by simp [he])
    rw [add_restoredFrom_iff hfields (hmem entry (by simp)), recordShared]
    split
    · exact Nat.zero_le _
    · -- there is a key before it
      rename_i hinside
      have hinside : es.length % kRestartInterval ≠ 0 := by simpa using hinside
      rcases List.eq_nil_or_concat es with rfl | ⟨es, prev, rfl⟩
      · exact absurd rfl hinside
      · rw [List.concat_eq_append] at *
        have hlen : (es ++ [prev]).length = es.length + 1 := by simp
        rw [hlen] at hinside hfirst
        rw [preKey_concat (hmem prev (by simp))]
        exact hshared es prev entry first (by simpa using hpre) hinside hfirst

/-- Three keys that share more with the first one, each. -/
theorem restoredFromFirst_iff_three :
    (∀ entry ∈ [(ascii "aa", ascii "x"), (ascii "ab", []), (ascii "ac", [])], entry.1 ≠ []) ∧
      (RestoredFromFirst [(ascii "aa", ascii "x"), (ascii "ab", []), (ascii "ac", [])] ↔
        SharedWithFirst [(ascii "aa", ascii "x"), (ascii "ab", []), (ascii "ac", [])]) :=
  ⟨by decide, restoredFromFirst_iff (by decide)⟩

/-- Three keys of which the third one shares its first byte with the second. -/
theorem bc_not_restored :
    ¬ RestoredFromFirst [(ascii "a", []), (ascii "bb", []), (ascii "bc", [])] := by
  intro hrestored
  rcases hrestored [(ascii "a", []), (ascii "bb", [])] (ascii "bc", []) (ascii "a", [])
    (List.prefix_refl _) rfl with ⟨record, hrecord, n, unshared, rfl, hn, hkey⟩
  -- nothing is shared with the first key, so the record would have the whole key
  obtain rfl : n = 0 := Nat.le_zero.1 hn
  obtain rfl : unshared = ascii "bc" := hkey
  revert hrecord
  decide

/-! ## The scan of a group -/

/-- `parse_record` applied a number of times, each time where the record before is
taken to end: where that leads, and what it yields. -/
def parseRecords (content : Bytes) : ℕ → ℤ → Exec (ℤ × List (ℤ × Bytes × Bytes))
  | 0, ptr => pure (ptr, [])
  | n + 1, ptr => do
    let (recordSize, sharedKeyLen, unsharedKeyContent, valueContent) ←
      SSTParser.parseRecord content ptr
    let (stop, records) ← parseRecords content n (ptr + recordSize)
    pure (stop, (sharedKeyLen, unsharedKeyContent, valueContent) :: records)

/-- What a record is encoded with. -/
def recordFields (s : RecordState) (entry : Bytes × Bytes) : ℤ × Bytes × Bytes :=
  let sharedKeyLen := recordShared (s.1 % kRestartInterval = 0) s.2 entry.1
  (sharedKeyLen, entry.1.drop sharedKeyLen, entry.2)

/-- What the records of a group are encoded with. -/
def groupFields (pairs : List (Bytes × Bytes)) : List (ℤ × Bytes × Bytes) :=
  encodeAll (fun s entry => [recordFields s entry]) RecordState.next RecordState.start pairs

/-- The block `data` is somewhere in the content of a file, and the scan of each of
its groups yields what the records of the group were encoded with, and ends where
the group does. -/
def ScanUndoesEncoding (entries : List (Bytes × Bytes)) (a data c : Bytes) : Prop :=
  ∀ i < groupNum entries,
    parseRecords (a ++ data ++ c) (group entries i).length (a.length + groupStart entries i) =
      .ok (a.length + groupStart entries i + (writeRecords (group entries i)).length,
        groupFields (group entries i))

/-- Where the first field is zero, no byte of the key is read. -/
theorem parseRecord_zero {content a c : Bytes} (hcontent : content = a ++ encodeFixed32 0 ++ c)
    {recordSize sharedKeyLen : ℤ} {unshared value : Bytes}
    (hrun : SSTParser.parseRecord content a.length =
      .ok (recordSize, sharedKeyLen, unshared, value)) : unshared = [] := by
  have hread : SSTParser.readInt32 content a.length = .ok 0 :=
    readInt32_at (by norm_num) (by norm_num) hcontent rfl
  rw [SSTParser.parseRecord, hread] at hrun
  rcases bind_eq_ok.1 hrun with ⟨_, hshared, hrun⟩
  cases hshared
  rcases bind_eq_ok.1 hrun with ⟨_, hunsharedLen, hrun⟩
  cases hunsharedLen
  rcases bind_eq_ok.1 hrun with ⟨_, hvalueLen, hrun⟩
  cases hvalueLen
  rcases bind_eq_ok.1 hrun with ⟨unshared', hunshared, hrun⟩
  rcases bind_eq_ok.1 hrun with ⟨value', -, hrun⟩
  cases hrun
  rcases bind_eq_ok.1 hunshared with ⟨_, -, hslice⟩
  rcases bind_eq_ok.1 hslice with ⟨_, -, hslice⟩
  cases hslice
  rfl

/-- A block starts with a zero, and then its first key. -/
theorem data_cons {entry : Bytes × Bytes} {entries : List (Bytes × Bytes)}
    (h : BlockFields (entry :: entries)) :
    ∃ rest, (blockOf (entry :: entries)).finishDataBlock.data = encodeFixed32 0 ++ rest := by
  rw [DataBlockBuilder.finishDataBlock, h.data, writeRecords, encodeAll_cons, writeRecord,
    DataBlockBuilder.record]
  simp only [List.append_assoc]
  exact ⟨_, rfl⟩

/-- The scan undoes the encoding of a block exactly when there is nothing in it: of
the first record of any group it does not read the key. -/
theorem scanUndoesEncoding_iff {entries : List (Bytes × Bytes)}
    (hkeys : ∀ entry ∈ entries, entry.1 ≠ []) (a c : Bytes) :
    ScanUndoesEncoding entries a (blockOf entries).finishDataBlock.data c ↔ entries = [] := by
  constructor
  · intro hscan
    cases entries with
    | nil => rfl
    | cons entry entries =>
        have hpos : 0 < groupNum (entry :: entries) := by
          unfold groupNum kRestartInterval
          rw [List.length_cons]
          omega
        have hgroup : group (entry :: entries) 0 = entry :: entries.take (kRestartInterval - 1) := rfl
        have hstart : (a.length : ℤ) + groupStart (entry :: entries) 0 = a.length := add_zero _
        rcases data_cons (blockFields hkeys) with ⟨rest, hdata⟩
        have hcontent : a ++ (blockOf (entry :: entries)).finishDataBlock.data ++ c =
            a ++ encodeFixed32 0 ++ (rest ++ c) := by
          rw [hdata]
          simp only [List.append_assoc]
        have hfirst := hscan 0 hpos
        rw [hstart, hgroup, List.length_cons] at hfirst
        rcases bind_eq_ok.1 hfirst with ⟨⟨recordSize, shared, unshared, value⟩, hrecord, hfirst⟩
        rcases bind_eq_ok.1 hfirst with ⟨⟨stop, records⟩, -, hfirst⟩
        -- the first of the fields
        have hyield := congrArg Prod.snd (Except.ok.inj hfirst)
        have hkey : unshared = entry.1 := by
          have hhead := (List.cons.inj hyield).1
          exact congrArg (fun fields => fields.2.1) hhead
        refine absurd ?_ (hkeys entry (by simp))
        rw [← hkey, parseRecord_zero hcontent hrecord]
  · rintro rfl i hi
    exact absurd hi (Nat.not_lt_zero i)

/-- One pair. -/
theorem scanUndoesEncoding_iff_one :
    (∀ entry ∈ [(ascii "a", ascii "x")], entry.1 ≠ []) ∧
      (ScanUndoesEncoding [(ascii "a", ascii "x")] []
          (blockOf [(ascii "a", ascii "x")]).finishDataBlock.data [] ↔
        [(ascii "a", ascii "x")] = []) :=
  ⟨by decide, scanUndoesEncoding_iff (by decide) [] []⟩

/-- A block with one pair, whose key and value are not read. -/
theorem ab_not_scanned :
    ¬ ScanUndoesEncoding [(ascii "a", ascii "b")] []
      (blockOf [(ascii "a", ascii "b")]).finishDataBlock.data [] := by
  intro hscan
  have hfirst := hscan 0 (by decide)
  revert hfirst
  decide +kernel

end Smallkv
