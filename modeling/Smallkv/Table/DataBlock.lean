import Smallkv.Lib.PrefixCode
import Smallkv.Storage.Codec

/-!
# Table.DataBlock — records with shared prefixes

A data block is a sequence of records followed by its restart points. In every
group of `kRestartInterval` records the first key is written in full, the others
without what they share with the key before them, so a record is read knowing
its place in the block and the key before it: that is a prefix code whose state
is a `RecordState`.
-/

namespace Smallkv

open Fallible PrefixCode

/-- `RESTART_INTERVAL`. -/
def kRestartInterval : ℕ := 16

/-- `MAX_DATA_BLOCK_SIZE`. -/
def kMaxDataBlockSize : ℕ := 4096

/-! ## Common prefixes -/

/-- The length of the longest common prefix. -/
def sharedLen : Bytes → Bytes → ℕ
  | a :: as, b :: bs => if a = b then sharedLen as bs + 1 else 0
  | _, _ => 0

theorem take_sharedLen (a b : Bytes) : a.take (sharedLen a b) = b.take (sharedLen a b) := by
  induction a generalizing b with
  | nil => rfl
  | cons x a ih =>
      cases b with
      | nil => rfl
      | cons y b =>
          by_cases hxy : x = y
          · simp [sharedLen, hxy, ih b]
          · simp [sharedLen, hxy]

theorem sharedLen_le (a b : Bytes) : sharedLen a b ≤ a.length := by
  induction a generalizing b with
  | nil => exact le_rfl
  | cons x a ih =>
      cases b with
      | nil => exact Nat.zero_le _
      | cons y b =>
          by_cases hxy : x = y
          · simpa [sharedLen, hxy] using ih b
          · simp [sharedLen, hxy]

/-! ## DataBlockBuilder -/

structure DataBlockBuilder where
  recordGroupOffset : List ℤ
  preKey : Bytes
  data : Bytes
  recordNum : ℤ

namespace DataBlockBuilder

def empty : DataBlockBuilder := ⟨[], [], [], 0⟩

def clear (_ : DataBlockBuilder) : DataBlockBuilder := ⟨[], [], [], 0⟩

def size (b : DataBlockBuilder) : ℕ := b.data.length

/-- One record: the first of its group in full, the others without the prefix
they share with the key before. -/
def record (needFullkey : Bool) (preKey key value : Bytes) : Bytes :=
  if needFullkey then
    encodeFixed32 0 ++ encodeFixed32 key.length ++ encodeFixed32 value.length ++ key ++ value
  else
    let sharedKeyLen := sharedLen key preKey
    encodeFixed32 sharedKeyLen ++ encodeFixed32 (key.length - sharedKeyLen) ++
      encodeFixed32 value.length ++ key.drop sharedKeyLen ++ value

def add (b : DataBlockBuilder) (key value : Bytes) : DataBlockBuilder :=
  if key = [] then b
  else
    let needFullkey := b.recordNum.tmod kRestartInterval = 0
    { recordGroupOffset :=
        if needFullkey then b.recordGroupOffset ++ [asInt32 b.size] else b.recordGroupOffset
      preKey := key
      data := b.data ++ record needFullkey b.preKey key value
      recordNum := asInt32 (b.recordNum + 1) }

/-- A restart point: how many records its group has, and where the group is. -/
def restartPoint (recordNum : ℤ) (offsetInfo : OffsetInfo) : Bytes :=
  encodeFixed32 (asUInt32 recordNum) ++ encodeOffsetInfo offsetInfo

/-- The loop over the groups. The last one ends where the records end, and is
given the number of records in the block modulo the interval. -/
def restartPoints (recordNum lastOffset : ℤ) : List ℤ → Bytes
  | [] => []
  | [offset] =>
    restartPoint (recordNum.tmod kRestartInterval) ⟨asInt32 (lastOffset - offset), offset⟩
  | offset :: next :: rest =>
    restartPoint kRestartInterval ⟨asInt32 (next - offset), offset⟩ ++
      restartPoints recordNum lastOffset (next :: rest)

/-- `static_cast<int>((record_num - 0.5) / 16) + 1`. -/
def restartPointNum (recordNum : ℤ) : ℤ := (2 * recordNum - 1).tdiv 32 + 1

/-- What `finish_data_block` puts behind the records: the restart points and
their number, but no restart offset. -/
def trailer (b : DataBlockBuilder) : Bytes :=
  restartPoints b.recordNum (asInt32 b.size) b.recordGroupOffset ++
    encodeFixed32 (asUInt32 (restartPointNum b.recordNum))

def finishDataBlock (b : DataBlockBuilder) : DataBlockBuilder :=
  { b with data := b.data ++ b.trailer }

end DataBlockBuilder

/-! ## Records as a code -/

/-- How many records the block has already, and the last key of them. -/
abbrev RecordState := ℕ × Bytes

def RecordState.start : RecordState := (0, [])

def RecordState.next (s : RecordState) (entry : Bytes × Bytes) : RecordState :=
  (s.1 + 1, entry.1)

/-- A record as it is written in a state. -/
def writeRecord (s : RecordState) (entry : Bytes × Bytes) : Bytes :=
  DataBlockBuilder.record (s.1 % kRestartInterval = 0) s.2 entry.1 entry.2

/-- `shared_key_len(4B) | unshared_key_len(4B) | value_len(4B) | unshared_key | value`:
in the first record of a group the key is there in full, in every other its
first `shared_key_len` bytes are those of the key just before. -/
def takeRecord (s : RecordState) (stream : Bytes) : Option ((Bytes × Bytes) × Bytes) := do
  let (sharedKeyLen, stream) ← takeFixed32 stream
  let (unsharedKeyLen, stream) ← takeFixed32 stream
  let (valueLen, stream) ← takeFixed32 stream
  let (unshared, stream) ← takeBytes unsharedKeyLen stream
  let (value, rest) ← takeBytes valueLen stream
  let key := if s.1 % kRestartInterval = 0 then unshared else s.2.take sharedKeyLen ++ unshared
  pure ((key, value), rest)

/-- The record section of a block, from left to right. -/
def decodeRecords (records : Bytes) : Option (List (Bytes × Bytes)) :=
  decodeAll takeRecord RecordState.next RecordState.start records

def writeRecords (entries : List (Bytes × Bytes)) : Bytes :=
  encodeAll writeRecord RecordState.next RecordState.start entries

/-- Lengths that the fields of a record can hold. -/
def FitsRecord (entry : Bytes × Bytes) : Prop :=
  entry.1.length < 2 ^ 32 ∧ entry.2.length < 2 ^ 32

theorem takeRecord_writeRecord (s : RecordState) {entry : Bytes × Bytes} (rest : Bytes)
    (h : FitsRecord entry) :
    takeRecord s (writeRecord s entry ++ rest) = some (entry, rest) := by
  rcases entry with ⟨key, value⟩
  have hkey : key.length < 2 ^ 32 := h.1
  have hvalue : value.length < 2 ^ 32 := h.2
  by_cases hfirst : s.1 % kRestartInterval = 0
  · simp only [takeRecord, writeRecord, DataBlockBuilder.record, hfirst, decide_true, if_true,
      List.append_assoc, takeFixed32_append (show 0 < 2 ^ 32 by norm_num), takeFixed32_append hkey,
      takeFixed32_append hvalue, takeBytes_append rfl, Option.bind_eq_bind, Option.bind_some,
      Option.pure_def]
  · -- the shared prefix is taken from the key before
    have hle := sharedLen_le key s.2
    have hshared : sharedLen key s.2 < 2 ^ 32 := by omega
    have hunshared : key.length - sharedLen key s.2 < 2 ^ 32 := by omega
    have hdrop : (key.drop (sharedLen key s.2)).length = key.length - sharedLen key s.2 :=
      List.length_drop
    have hkeyEq : s.2.take (sharedLen key s.2) ++ key.drop (sharedLen key s.2) = key := by
      rw [← take_sharedLen, List.take_append_drop]
    simp only [takeRecord, writeRecord, DataBlockBuilder.record, hfirst, decide_false, if_false,
      Bool.false_eq_true, List.append_assoc, takeFixed32_append hshared,
      takeFixed32_append hunshared, takeFixed32_append hvalue, takeBytes_append hdrop,
      takeBytes_append rfl, Option.bind_eq_bind, Option.bind_some, Option.pure_def, hkeyEq]

theorem writeRecord_length (s : RecordState) (entry : Bytes × Bytes) :
    12 ≤ (writeRecord s entry).length ∧
      (writeRecord s entry).length ≤ 12 + entry.1.length + entry.2.length := by
  unfold writeRecord DataBlockBuilder.record
  split
  · simp only [List.length_append, length_encodeFixed32]
    omega
  · simp only [List.length_append, length_encodeFixed32, List.length_drop]
    omega

/-- Records are read back in order. -/
theorem decodeRecords_writeRecords {entries : List (Bytes × Bytes)}
    (h : ∀ entry ∈ entries, FitsRecord entry) :
    decodeRecords (writeRecords entries) = some entries := by
  refine decodeAll_encodeAll (fun s entry rest => takeRecord_writeRecord s rest) ?_ _ h
  intro s entry hnil
  have hlen := (writeRecord_length s entry).1
  rw [hnil] at hlen
  simp at hlen

end Smallkv
