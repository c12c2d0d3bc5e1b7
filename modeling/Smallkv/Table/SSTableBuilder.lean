import Smallkv.DB.Format
import Smallkv.Table.DataBlock
import Smallkv.Table.Filter

/-!
# Table.SSTableBuilder — building a table

`add` collects records in a data block and cuts the block off when it has grown
over its limit; `finishSst` writes what is left of it, then the filter, the
index and the footer. `FilterBlock_offset.offset` is the end of the data blocks
written so far, which `add` moves on before, and `finishSst` after, it puts a
block into the index.
-/

namespace Smallkv

open Fallible

/-! ## Index and footer -/

structure IndexBlockBuilder where
  data : Bytes

namespace IndexBlockBuilder

/-- `_shortest_key_size(4B) | _shortest_key | _offsetInfo(8B)`. -/
def add (b : IndexBlockBuilder) (shortestKey : Bytes) (offsetInfo : OffsetInfo) :
    IndexBlockBuilder :=
  ⟨b.data ++ encodeFixed32 shortestKey.length ++ shortestKey ++ encodeOffsetInfo offsetInfo⟩

def clear (_ : IndexBlockBuilder) : IndexBlockBuilder := ⟨[]⟩

end IndexBlockBuilder

structure FooterBuilder where
  data : Bytes

namespace FooterBuilder

/-- `MetaBlock_OffsetInfo(8B) | IndexBlock_OffsetInfo(8B)`. -/
def add (b : FooterBuilder) (metaBlock indexBlock : OffsetInfo) : FooterBuilder :=
  ⟨b.data ++ encodeOffsetInfo metaBlock ++ encodeOffsetInfo indexBlock⟩

def clear (_ : FooterBuilder) : FooterBuilder := ⟨[]⟩

end FooterBuilder

/-! ## The builder -/

structure SSTableBuilder where
  dataBlockBuilder : DataBlockBuilder
  indexBlockBuilder : IndexBlockBuilder
  filterBlockBuilder : FilterBlockBuilder
  fileWriter : FileWriter
  footerBuilder : FooterBuilder
  filterBlockOffset : OffsetInfo
  indexBlockOffset : OffsetInfo
  keysNum : ℤ
  indexData : Bytes
  keyCount : ℤ
  preKey : Bytes

namespace SSTableBuilder

variable (fm : FloatMath)

def new (keysNum : ℤ) (fileWriter : FileWriter) : Exec SSTableBuilder := do
  let filterBlockBuilder ← FilterBlockBuilder.new fm keysNum
  pure
    { dataBlockBuilder := DataBlockBuilder.empty
      indexBlockBuilder := ⟨[]⟩
      filterBlockBuilder := filterBlockBuilder
      fileWriter := fileWriter
      footerBuilder := ⟨[]⟩
      filterBlockOffset := OffsetInfo.empty
      indexBlockOffset := OffsetInfo.empty
      keysNum := keysNum
      indexData := []
      keyCount := 0
      preKey := [] }

/-- `s.back() += 1`, which needs a last byte. -/
def bumpLast (s : Bytes) : Exec Bytes := do
  let last ← orFail .badAccess s.getLast?
  pure (s.dropLast ++ [last + 1])

/-- The number of positions at which the keys agree. The loop does not stop at
the first difference. -/
def equalPositions (key1 key2 : Bytes) : ℕ := (key1.zip key2).countP fun p => p.1 = p.2

def findShortestKey (key1 key2 : Bytes) : Exec Bytes := do
  require .assertion (key1 ≠ [])
  require .assertion (key2 ≠ [])
  require .assertion (key1 < key2)
  let cnt := equalPositions key1 key2
  if key1.length = cnt then pure (key1 ++ ascii " ")
  else bumpLast (key1.take (cnt + 1))

/-- `fileWriter->append(data.data(), static_cast<int32_t>(data.size()))`. -/
def appendAll (w : FileWriter) (data : Bytes) : Exec FileWriter :=
  w.append data (asInt32 data.length) false

/-- Put the index entry of a block away. -/
def addIndex (b : SSTableBuilder) (key : Bytes) (offsetInfo : OffsetInfo) : SSTableBuilder :=
  let indexBlockBuilder := b.indexBlockBuilder.add key offsetInfo
  { b with
    indexData := b.indexData ++ indexBlockBuilder.data
    indexBlockBuilder := indexBlockBuilder.clear }

/-- The branch of `add` for a block over the limit. -/
def cutBlock (b : SSTableBuilder) (key : Bytes) : Exec SSTableBuilder := do
  let block := b.dataBlockBuilder.finishDataBlock.data
  let fileWriter ← appendAll b.fileWriter block
  let size := asInt32 block.length
  -- moved on before the entry is made, so the entry points behind its block
  let filterBlockOffset :=
    { b.filterBlockOffset with offset := asInt32 (b.filterBlockOffset.offset + size) }
  let shortestKey ← findShortestKey b.preKey key
  let b :=
    { b with
      fileWriter := fileWriter
      filterBlockOffset := filterBlockOffset
      dataBlockBuilder := DataBlockBuilder.empty }
  pure (b.addIndex shortestKey ⟨size, filterBlockOffset.offset⟩)

/-- The size of the data block is tested behind every record. -/
def cutIfOver (b : SSTableBuilder) (key : Bytes) : Exec SSTableBuilder :=
  if b.dataBlockBuilder.size > kMaxDataBlockSize then b.cutBlock key else pure b

def add (b : SSTableBuilder) (key value : Bytes) : Exec SSTableBuilder :=
  if key = [] then pure b
  else do
    let b :=
      { b with
        filterBlockBuilder := b.filterBlockBuilder.add key
        dataBlockBuilder := b.dataBlockBuilder.add key value
        keyCount := asInt32 (b.keyCount + 1) }
    let b ← b.cutIfOver key
    pure { b with preKey := key }

/-- The first part of `finish_sst`: the last data block. -/
def finishBlocks (b : SSTableBuilder) : Exec SSTableBuilder :=
  if b.dataBlockBuilder.size > 0 then do
    let block := b.dataBlockBuilder.finishDataBlock.data
    let fileWriter ← appendAll b.fileWriter block
    let size := asInt32 block.length
    let preKey ← bumpLast b.preKey
    let b :=
      { b with
        fileWriter := fileWriter
        preKey := preKey
        dataBlockBuilder := DataBlockBuilder.empty }.addIndex preKey ⟨size, b.filterBlockOffset.offset⟩
    pure
      { b with
        filterBlockOffset :=
          { b.filterBlockOffset with offset := asInt32 (b.filterBlockOffset.offset + size) } }
  else pure b

/-- The rest of it: filter, index and footer. -/
def finishMeta (b : SSTableBuilder) : Exec SSTableBuilder := do
  let filterBlockBuilder ← b.filterBlockBuilder.finishFilterBlock
  let filterBlockOffset :=
    { b.filterBlockOffset with size := asInt32 filterBlockBuilder.data.length }
  -- finished a second time before it is written
  let filterBlockBuilder ← filterBlockBuilder.finishFilterBlock
  let fileWriter ← appendAll b.fileWriter filterBlockBuilder.data
  let fileWriter ← appendAll fileWriter b.indexData
  require .assertion (asInt32 b.indexData.length > 0)
  let indexBlockOffset : OffsetInfo :=
    { offset := asInt32 (filterBlockOffset.offset + filterBlockOffset.size)
      size := asInt32 b.indexData.length }
  let footerBuilder := b.footerBuilder.add filterBlockOffset indexBlockOffset
  let fileWriter ← appendAll fileWriter footerBuilder.data
  let filterBlockBuilder ← FilterBlockBuilder.new fm b.keysNum
  pure
    { b with
      dataBlockBuilder := DataBlockBuilder.empty
      indexBlockBuilder := b.indexBlockBuilder.clear
      filterBlockBuilder := filterBlockBuilder
      fileWriter := fileWriter.flush.close
      footerBuilder := footerBuilder.clear
      filterBlockOffset := OffsetInfo.empty
      indexBlockOffset := OffsetInfo.empty
      indexData := []
      preKey := [] }

def finishSst (b : SSTableBuilder) : Exec SSTableBuilder := do
  let b ← b.finishBlocks
  b.finishMeta fm

/-- Feed the builder its pairs. -/
def addAll (b : SSTableBuilder) (entries : List (Bytes × Bytes)) : Exec SSTableBuilder :=
  run (fun b entry => b.add entry.1 entry.2) b entries

/-- The bytes of a table in a new file. -/
def build (keysNum : ℤ) (entries : List (Bytes × Bytes)) : Exec Bytes := do
  let b ← new fm keysNum (FileWriter.openFile [])
  let b ← b.addAll entries
  let b ← b.finishSst fm
  pure b.fileWriter.file

end SSTableBuilder

end Smallkv
