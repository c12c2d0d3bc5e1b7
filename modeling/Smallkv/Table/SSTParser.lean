import Smallkv.Table.SSTableBuilder

/-!
# Table.SSTParser — reading a table

The parser works on the whole content of a file, with the newlines that
`getline` drops. Where the code reads through a pointer into the content the
model reads at a position of it, and a read outside the content is a fault.
-/

namespace Smallkv

open Fallible

structure IndexBlock where
  shortestKey : Bytes
  offsetInfo : OffsetInfo
deriving DecidableEq, Repr

structure RestartPoint where
  recordNum : ℤ
  rpOffset : OffsetInfo
  fullkey : Bytes
deriving DecidableEq, Repr

structure SSTParser where
  filterPolicy : BloomFilter
  indexBlocks : List IndexBlock
  sstContent : Bytes

namespace SSTParser

/-- `'\n'`. -/
def newline : Byte := 10

/-- `ReadAll`: `getline` takes the newlines away. -/
def readAll (file : Bytes) : Bytes := file.filter (· ≠ newline)

/-! ## Reading through pointers -/

/-- `*reinterpret_cast<int32_t *>(ptr)` and `static_cast<int>(DecodeFixed32(ptr))`. -/
def readInt32 (content : Bytes) (pos : ℤ) : Exec ℤ := do
  let val ← decodeFixed32 content pos
  pure (asInt32 val)

/-- `std::string(ptr, len)`: a negative length is converted to a huge one, which
throws. -/
def readString (content : Bytes) (pos len : ℤ) : Exec Bytes := do
  require .exception (0 ≤ len)
  slice content pos len

/-- `*reinterpret_cast<int32_t *>(n)` of an integer, not of a pointer into the
content: there is no object at that address. -/
def readAddress (_address : ℤ) : Exec ℤ := .error .badAccess

/-! ## Parse -/

/-- The loop over the index blocks. Positions are computed as `int`s and used as
offsets of a pointer. -/
def parseIndex (content : Bytes) (stop : ℤ) : ℕ → ℤ → List IndexBlock → Exec (List IndexBlock)
  | 0, _, _ => .error .endless
  | fuel + 1, start, blocks =>
    if start < stop then do
      let shortestKeySize ← readInt32 content start
      let shortestKey ← readString content (start + 4) shortestKeySize
      let offsetInfo ← readOffsetInfo content (start + 4 + shortestKeySize)
      parseIndex content stop fuel (asInt32 (start + (4 + shortestKeySize + 8)))
        (blocks ++ [⟨shortestKey, offsetInfo⟩])
    else do
      require .assertion (start = stop)
      pure blocks

/-- `Parse`, from the content of the file. Each turn of the index loop consumes
twelve bytes or more, so the size of the content is fuel enough. -/
def parse (file : Bytes) : Exec SSTParser := do
  let content := readAll file
  let size : ℤ := content.length
  let metaBlock ← readOffsetInfo content (size - 16)
  let indexBlock ← readOffsetInfo content (size - 8)
  let indexBlocks ← parseIndex content (asInt32 (indexBlock.offset + indexBlock.size))
    (content.length + 1) indexBlock.offset []
  -- `*reinterpret_cast<int32_t *>(START + SIZE - 4)`, without `sst_ptr`
  let hashFuncNum ← readAddress (metaBlock.offset + metaBlock.size - 4)
  let bitsArray ← readString content metaBlock.offset (metaBlock.size - 4)
  pure
    { filterPolicy := BloomFilter.empty.createFilter2 hashFuncNum bitsArray
      indexBlocks := indexBlocks
      sstContent := content }

/-! ## Seek -/

def findKeyDBIndex (p : SSTParser) (key : Bytes) : Option ℕ :=
  p.indexBlocks.findIdx? fun block => key < block.shortestKey

def findFullKeyByRP (content : Bytes) (start recordNum : ℤ) (rgOffset : OffsetInfo) :
    Exec Bytes := do
  require .assertion (recordNum > 0)
  let firstRecord := start + rgOffset.offset
  let sharedKeyLen ← readInt32 content firstRecord
  require .assertion (sharedKeyLen = 0)
  let unsharedKeyLen ← readInt32 content (firstRecord + 4)
  require .assertion (unsharedKeyLen > 0)
  readString content (firstRecord + 12) unsharedKeyLen

/-- The loop over the restart points, which stops at the first one behind the
key. -/
def collectRestartPoints (content key : Bytes) (start restartOffset : ℤ) :
    ℕ → ℤ → List RestartPoint → Exec (List RestartPoint)
  | 0, _, rps => pure rps
  | n + 1, i, rps => do
    let rpStart := start + restartOffset + i * 12
    let recordNum ← readInt32 content rpStart
    let rpOffset ← readOffsetInfo content (rpStart + 4)
    let fullkey ← findFullKeyByRP content start recordNum rpOffset
    if key < fullkey then pure rps
    else
      collectRestartPoints content key start restartOffset n (i + 1)
        (rps ++ [⟨recordNum, rpOffset, fullkey⟩])

/-- `parse_record`: all three lengths are read from the start of the record. -/
def parseRecord (content : Bytes) (ptr : ℤ) : Exec (ℤ × ℤ × Bytes × Bytes) := do
  -- `ptr` is not moved between the three
  let sharedKeyLen ← readInt32 content ptr
  let unsharedKeyLen ← readInt32 content ptr
  let valueLen ← readInt32 content ptr
  let recordSize := 12 + unsharedKeyLen + valueLen
  let unsharedKeyContent ← readString content (ptr + 12) unsharedKeyLen
  let valueContent ← readString content (ptr + 12 + unsharedKeyLen) valueLen
  pure (recordSize, sharedKeyLen, unsharedKeyContent, valueContent)

/-- The loop over the records of a group: where it stopped, and the value.
`FULLKEY.substr(0, shared_key_len).data()` points at the whole of the first key,
so the key that is repaired starts with that key's C string. -/
def scanGroup (content key fullkey : Bytes) : ℕ → ℤ → Exec (ℤ × Bytes)
  | 0, rgStart => pure (rgStart, [])
  | n + 1, rgStart => do
    let (recordSize, _, unsharedKeyContent, valueContent) ← parseRecord content rgStart
    let rgStart := rgStart + recordSize
    let repairedKey := cString fullkey ++ unsharedKeyContent
    if repairedKey = key then pure (rgStart, valueContent)
    else scanGroup content key fullkey n rgStart

def findKeyInDB (content key : Bytes) (start stop : ℤ) : Exec (Option Bytes) := do
  let restartNum ← readInt32 content (stop - 12)
  let restartOffset ← readOffsetInfo content (stop - 8)
  let rps ← collectRestartPoints content key start restartOffset.offset restartNum.toNat 0 []
  match rps.getLast? with
  | none => pure none
  | some rp => do
    require .assertion (rp.fullkey ≤ key)
    let (rgStart, value) ← scanGroup content key rp.fullkey rp.recordNum.toNat
      (start + rp.rpOffset.offset)
    require .assertion (rgStart ≤ start + rp.rpOffset.offset + rp.rpOffset.size)
    -- an empty value is taken for a key that is not there
    pure (if value = [] then none else some value)

def seek (p : SSTParser) (key : Bytes) : Exec (Option Bytes) := do
  if ← p.filterPolicy.exists_ key then
    match p.findKeyDBIndex key with
    | none => pure none
    | some i => do
      let block ← orFail .badAccess p.indexBlocks[i]?
      findKeyInDB p.sstContent key block.offsetInfo.offset
        (block.offsetInfo.offset + block.offsetInfo.size)
  else pure none

/-- `SSTParser(path)`, `Parse()` and `Seek(key)`. -/
def parseAndSeek (file key : Bytes) : Exec (Option Bytes) := do
  let p ← parse file
  p.seek key

end SSTParser

/-- The tables of the code. -/
def sstFormat (fm : FloatMath) : SstFormat where
  build := SSTableBuilder.build fm
  seek := SSTParser.parseAndSeek

/-! ## No file is ever parsed -/

/-- Before `Parse` comes to its end it reads the number of hash functions at an
address that is no pointer into the content. -/
theorem parse_ne_ok (file : Bytes) (p : SSTParser) : SSTParser.parse file ≠ .ok p := by
  intro h
  rcases bind_eq_ok.1 h with ⟨metaBlock, -, h⟩
  rcases bind_eq_ok.1 h with ⟨indexBlock, -, h⟩
  rcases bind_eq_ok.1 h with ⟨indexBlocks, -, h⟩
  rcases bind_eq_ok.1 h with ⟨hashFuncNum, haddress, -⟩
  cases haddress

/-- So no key is ever looked up in a table. -/
theorem sstFormat_seek_ne_ok (fm : FloatMath) (file key : Bytes) (val : Option Bytes) :
    (sstFormat fm).seek file key ≠ .ok val := by
  intro h
  rcases bind_eq_ok.1 h with ⟨p, hparse, -⟩
  exact parse_ne_ok file p hparse

/-- What a table is for: built from the pairs and parsed, it finds every pair and
no other key. -/
def RoundTrip (fm : FloatMath) (keysNum : ℤ) (entries : List (Bytes × Bytes)) : Prop :=
  ∃ file p, SSTableBuilder.build fm keysNum entries = .ok file ∧ SSTParser.parse file = .ok p ∧
    (∀ entry ∈ entries, p.seek entry.1 = .ok (some entry.2)) ∧
    ∀ key, key ∉ entries.map Prod.fst → p.seek key = .ok none

/-- No sequence of pairs makes the round trip. -/
theorem not_roundTrip (fm : FloatMath) (keysNum : ℤ) (entries : List (Bytes × Bytes)) :
    ¬ RoundTrip fm keysNum entries := by
  rintro ⟨file, p, -, hparse, -, -⟩
  exact parse_ne_ok file p hparse

/-- The two expressions in fixed-point arithmetic. -/
def decimalMath : FloatMath where
  bitsNum keysNum := (-95850583773 * keysNum).tdiv 10000000000
  hashNum bitsPerKey := (6931471806 * bitsPerKey).tdiv 10000000000

/-- One pair is built into a table that is not parsed. -/
theorem roundTrip_fails_ab :
    (∃ file, SSTableBuilder.build decimalMath 1 [(ascii "a", ascii "b")] = .ok file) ∧
      ¬ RoundTrip decimalMath 1 [(ascii "a", ascii "b")] := by
  constructor
  · exact ⟨_, rfl⟩
  · rintro ⟨file, p, -, hparse, -, -⟩
    exact parse_ne_ok file p hparse

end Smallkv
