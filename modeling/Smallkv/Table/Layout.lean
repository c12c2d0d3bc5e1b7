import Smallkv.Table.Blocks
import Smallkv.Table.FilterSound

/-!
# Table.Layout — where filter and index are

A table file is its data blocks, the filter, the index entries and the footer.
`add` and `finish_sst` keep the end of the data blocks as a running sum of
`int32_t`, so what the footer says is right as long as the file is shorter than
2 GiB. Sizes are cut to an `int32_t` before they are given to the writer; that
nothing of the blocks is lost in this needs pairs below 2 GiB, and that nothing
of the index is lost follows: a key of the index is no longer than the block in
front of it.
-/

namespace Smallkv

open Fallible PrefixCode

/-! ## The parts of a file -/

/-- `_shortest_key_size(4B) | _shortest_key | _offsetInfo(8B)`. -/
def indexEntry (e : IndexBlock) : Bytes :=
  encodeFixed32 e.shortestKey.length ++ e.shortestKey ++ encodeOffsetInfo e.offsetInfo

def indexBytes (index : List IndexBlock) : Bytes := index.flatMap indexEntry

/-- The blocks with these pairs, as they are given to the writer. -/
def appendedBlocks (blocks : List (List (Bytes × Bytes))) : Bytes :=
  blocks.flatMap fun entries => appended (blockOf entries).finishDataBlock.data

/-- The bit array followed by the number of hashes. -/
def filterBytes (policy : BloomFilter) : Bytes :=
  policy.bitsArray ++ encodeFixed32 (asUInt32 policy.hashFuncNum)

/-- The filter of a table: `finish_sst` makes it twice of the same keys. -/
def tableFilter (fm : FloatMath) (keysNum : ℤ) (keys : List Bytes) : Exec BloomFilter := do
  let policy ← BloomFilter.new fm keysNum
  let policy ← policy.createFilter keys
  policy.createFilter keys

/-- The file is these parts and a footer, and the footer says where filter and
index are. -/
structure SstLayout (file dataBlocks filter index : Bytes) (metaBlock indexBlock : OffsetInfo) :
    Prop where
  parts : ∃ footer, footer.length = 16 ∧ file = dataBlocks ++ filter ++ index ++ footer
  readMeta : readOffsetInfo file (file.length - 16) = .ok metaBlock
  readIndex : readOffsetInfo file (file.length - 8) = .ok indexBlock
  metaAt : metaBlock.offset = dataBlocks.length ∧ metaBlock.size = filter.length
  indexAt : indexBlock.offset = dataBlocks.length + filter.length ∧ indexBlock.size = index.length
  filterThere : slice file metaBlock.offset metaBlock.size = .ok filter
  indexThere : slice file indexBlock.offset indexBlock.size = .ok index
  total : indexBlock.offset + indexBlock.size + 16 = file.length

/-- A range of a file as the code has it. -/
def OffsetInfo.ofRange (range : ℕ × ℕ) : OffsetInfo := ⟨range.2, range.1⟩

/-- An `OffsetInfo` of lengths is read back from where it is. -/
theorem readOffsetInfo_at {size offset : ℕ} (hsize : size < 2 ^ 31) (hoffset : offset < 2 ^ 31)
    {file a c : Bytes} (hfile : file = a ++ encodeOffsetInfo ⟨size, offset⟩ ++ c) {pos : ℤ}
    (hpos : pos = a.length) : readOffsetInfo file pos = .ok ⟨size, offset⟩ := by
  subst hfile hpos
  refine readOffsetInfo_append ?_ ?_ a c
  · simp only
    omega
  · simp only
    omega

/-- An `int32_t` is read back from where it is. -/
theorem readInt32_at {x : ℤ} (hlow : -2 ^ 31 ≤ x) (hhigh : x < 2 ^ 31) {content a c : Bytes}
    (hcontent : content = a ++ encodeFixed32 (asUInt32 x) ++ c) {pos : ℤ} (hpos : pos = a.length) :
    SSTParser.readInt32 content pos = .ok x := by
  have hlen : (4 : ℤ) = (encodeFixed32 (asUInt32 x)).length := by
    rw [length_encodeFixed32]
    rfl
  rw [SSTParser.readInt32, decodeFixed32, hcontent, slice_append hpos hlen, ok_bind, pure_eq_ok,
    ok_bind, fixedValue_encodeFixed32 (asUInt32_lt x), OffsetInfo.asInt32_asUInt32 hlow hhigh,
    pure_eq_ok]

/-- What a footer with the lengths of the parts in front of it says. -/
theorem sstLayout_of_lengths {dataBlocks filter index : Bytes} {metaBlock indexBlock : OffsetInfo}
    (hlen : (dataBlocks ++ filter ++ index).length < 2 ^ 31)
    (hmeta : metaBlock = ⟨filter.length, dataBlocks.length⟩)
    (hindex : indexBlock = ⟨index.length, (dataBlocks.length + filter.length : ℕ)⟩) :
    SstLayout
      (dataBlocks ++ filter ++ index ++ (encodeOffsetInfo metaBlock ++ encodeOffsetInfo indexBlock))
      dataBlocks filter index metaBlock indexBlock := by
  have hfile : (dataBlocks ++ filter ++ index ++
      (encodeOffsetInfo metaBlock ++ encodeOffsetInfo indexBlock)).length =
        dataBlocks.length + filter.length + index.length + 16 := by
    simp only [List.length_append, length_encodeOffsetInfo]
  simp only [List.length_append] at hlen
  subst hmeta hindex
  constructor
  case parts => exact ⟨_, by simp, rfl⟩
  case readMeta =>
    refine readOffsetInfo_at (by omega) (by omega) (List.append_assoc _ _ _).symm ?_
    rw [hfile, List.length_append, List.length_append]
    omega
  case readIndex =>
    refine readOffsetInfo_at (c := []) (a := dataBlocks ++ filter ++ index ++
      encodeOffsetInfo ⟨filter.length, dataBlocks.length⟩) (by omega) (by omega) ?_ ?_
    · rw [List.append_nil, List.append_assoc (dataBlocks ++ filter ++ index)]
    · simp only [hfile, List.length_append, length_encodeOffsetInfo]
      omega
  case metaAt => exact ⟨rfl, rfl⟩
  case indexAt => exact ⟨by push_cast; rfl, rfl⟩
  case filterThere =>
    rw [List.append_assoc (dataBlocks ++ filter)]
    exact slice_append rfl rfl
  case indexThere => exact slice_append (by rw [List.length_append]) rfl
  case total =>
    rw [hfile]
    simp only
    omega

/-! ## The index stays small -/

/-- Keys are spelled out in the records they are built from, one after the
other, so no key is longer than its block. -/
theorem lastKey_length_le (entries : List (Bytes × Bytes)) :
    (nextAll RecordState.next RecordState.start entries).2.length ≤
      (writeRecords entries).length := by
  induction entries using List.reverseRecOn with
  | nil => exact le_rfl
  | append_singleton entries entry ih =>
      have hshared := sharedLen_le entry.1 (nextAll RecordState.next RecordState.start entries).2
      have hprefix := congrArg List.length
        (take_sharedLen entry.1 (nextAll RecordState.next RecordState.start entries).2)
      simp only [List.length_take] at hprefix
      rw [nextAll_snd_concat, writeRecords, encodeAll_concat, ← writeRecords, writeRecord,
        DataBlockBuilder.record]
      split
      · simp only [List.length_append]
        omega
      · simp only [List.length_append, List.length_drop]
        omega

theorem size_le_finished (entries : List (Bytes × Bytes)) :
    (blockOf entries).size ≤ (blockOf entries).finishDataBlock.data.length := by
  rw [DataBlockBuilder.finishDataBlock, List.length_append]
  exact Nat.le_add_right _ _

theorem equalPositions_le (a b : Bytes) : SSTableBuilder.equalPositions a b ≤ a.length := by
  refine List.countP_le_length.trans ?_
  rw [List.length_zip]
  exact min_le_left _ _

theorem bumpLast_length {key bumped : Bytes} (hrun : SSTableBuilder.bumpLast key = .ok bumped) :
    bumped.length = key.length := by
  rcases bind_eq_ok.1 hrun with ⟨last, hlast, hrun⟩
  cases hrun
  have hpos := List.length_pos_of_mem (List.mem_of_getLast? (orFail_eq_ok.1 hlast))
  simp only [List.length_append, List.length_dropLast, List.length_singleton]
  omega

/-- A separator is one byte longer than the number of positions at which its keys
agree. -/
theorem length_findShortestKey {key1 key2 key : Bytes}
    (hrun : SSTableBuilder.findShortestKey key1 key2 = .ok key) :
    key.length = SSTableBuilder.equalPositions key1 key2 + 1 := by
  have hle := equalPositions_le key1 key2
  rcases bind_eq_ok.1 hrun with ⟨_, -, hrun⟩
  rcases bind_eq_ok.1 hrun with ⟨_, -, hrun⟩
  rcases bind_eq_ok.1 hrun with ⟨_, -, hrun⟩
  simp only at hrun
  split at hrun
  · rename_i hcount
    cases hrun
    rw [List.length_append, hcount]
    rfl
  · rw [bumpLast_length hrun, List.length_take]
    omega

theorem findShortestKey_length {key1 key2 key : Bytes}
    (hrun : SSTableBuilder.findShortestKey key1 key2 = .ok key) :
    key.length ≤ key1.length + 1 := by
  have hle := equalPositions_le key1 key2
  rw [length_findShortestKey hrun]
  omega

theorem indexEntry_length (e : IndexBlock) :
    (indexEntry e).length = 12 + e.shortestKey.length := by
  simp only [indexEntry, List.length_append, length_encodeFixed32, length_encodeOffsetInfo]
  omega

/-! ## Running sums -/

/-- What a builder that started with the filter `f` on a new file has given to
the writer, and the index entries it keeps for it. -/
structure FileInv (f : BloomFilter) (keys : List Bytes) (b : SSTableBuilder)
    (blocks : List (List (Bytes × Bytes))) (index : List IndexBlock) : Prop where
  stream : b.fileWriter.stream = appendedBlocks blocks
  offset : b.filterBlockOffset.offset = asInt32 (appendedBlocks blocks).length
  filter : b.filterBlockBuilder = ⟨f, keys, []⟩
  indexData : b.indexData = indexBytes index
  perBlock : index.length = blocks.length
  indexCleared : b.indexBlockBuilder.data = []
  footerCleared : b.footerBuilder.data = []

theorem appendedBlocks_concat (blocks : List (List (Bytes × Bytes))) (pairs : List (Bytes × Bytes)) :
    appendedBlocks (blocks ++ [pairs]) =
      appendedBlocks blocks ++ appended (blockOf pairs).finishDataBlock.data := by
  rw [appendedBlocks, List.flatMap_append, List.flatMap_singleton, ← appendedBlocks]

theorem indexBytes_concat (index : List IndexBlock) (e : IndexBlock) :
    indexBytes (index ++ [e]) = indexBytes index ++ indexEntry e := by
  rw [indexBytes, List.flatMap_append, List.flatMap_singleton, ← indexBytes]

/-- A block that is put away moves the end of the blocks on by what the writer
takes in. -/
theorem FileInv.putAway {f : BloomFilter} {keys keys' : List Bytes} {b b' : SSTableBuilder}
    {blocks : List (List (Bytes × Bytes))} {index : List IndexBlock}
    (h : FileInv f keys b blocks index) {pairs : List (Bytes × Bytes)} {data : Bytes}
    (hdata : data = (blockOf pairs).finishDataBlock.data) {w : FileWriter}
    (hrun : SSTableBuilder.appendAll b.fileWriter data = .ok w) (hwriter : b'.fileWriter = w)
    (hoffset : b'.filterBlockOffset.offset =
      asInt32 (b.filterBlockOffset.offset + asInt32 data.length))
    (hfilter : b'.filterBlockBuilder = ⟨f, keys', []⟩) {e : IndexBlock}
    (hindex : b'.indexData = b.indexData ++ indexEntry e)
    (hcleared : b'.indexBlockBuilder.data = []) (hfooter : b'.footerBuilder = b.footerBuilder) :
    FileInv f keys' b' (blocks ++ [pairs]) (index ++ [e]) := by
  subst hdata
  rcases appendAll_spec hrun with ⟨hpos, hstream⟩
  refine ⟨?_, ?_, hfilter, ?_, ?_, hcleared, hfooter ▸ h.footerCleared⟩
  · rw [hwriter, hstream, h.stream, appendedBlocks_concat]
  · rw [hoffset, h.offset, asInt32_add, appendedBlocks_concat, List.length_append, Nat.cast_add,
      length_appended hpos]
  · rw [hindex, h.indexData, indexBytes_concat]
  · rw [List.length_append, List.length_append, h.perBlock, List.length_singleton,
      List.length_singleton]

/-- The pairs added so far are those of the blocks in the file and of the block
that is being filled, and the index has room: each of its keys is paid for by
the block in front. -/
structure LayoutInv (f : BloomFilter) (entries : List (Bytes × Bytes)) (b : SSTableBuilder)
    (blocks : List (List (Bytes × Bytes))) (current : List (Bytes × Bytes))
    (index : List IndexBlock) : Prop where
  file : FileInv f (entries.map Prod.fst) b blocks index
  added : blocks.flatten ++ current = entries
  nonempty : ∀ block ∈ blocks, block ≠ []
  block : b.dataBlockBuilder = blockOf current
  spec : BlockSpec current
  small : (blockOf current).size ≤ kMaxDataBlockSize
  whole : (∀ entry ∈ entries, entry.1.length + entry.2.length < 2 ^ 31) →
    appendedBlocks blocks = blocksBytes blocks
  room : (indexBytes index).length + max b.preKey.length kMaxDataBlockSize ≤
    (blocksBytes blocks).length + 13 * blocks.length + kMaxDataBlockSize
  large : kMaxDataBlockSize * blocks.length ≤ (blocksBytes blocks).length

namespace SSTableBuilder

theorem new_layoutInv {fm : FloatMath} {keysNum : ℤ} {b : SSTableBuilder}
    (hrun : new fm keysNum (FileWriter.openFile []) = .ok b) :
    ∃ f, BloomFilter.new fm keysNum = .ok f ∧ LayoutInv f [] b [] [] [] := by
  rcases bind_eq_ok.1 hrun with ⟨filterBlockBuilder, hfilter, hrun⟩
  cases hrun
  rcases bind_eq_ok.1 hfilter with ⟨f, hf, hfilter⟩
  cases hfilter
  exact ⟨f, hf,
    { file := ⟨rfl, rfl, rfl, rfl, rfl, rfl, rfl⟩
      added := rfl
      nonempty := by simp
      block := rfl
      spec := ⟨rfl, rfl, rfl, le_rfl⟩
      small := Nat.zero_le _
      whole := by simp [appendedBlocks, blocksBytes]
      room := by simp [indexBytes, blocksBytes]
      large := by simp }⟩

section Add

variable {f : BloomFilter} {entries current : List (Bytes × Bytes)} {b : SSTableBuilder}
  {blocks : List (List (Bytes × Bytes))} {index : List IndexBlock} {entry : Bytes × Bytes}

/-- The key that becomes the last one is no longer than its block. -/
theorem key_length_le (hspec : BlockSpec (current ++ [entry])) :
    entry.1.length ≤ (blockOf (current ++ [entry])).size := by
  rw [DataBlockBuilder.size, hspec.data, ← nextAll_snd_concat current entry]
  exact lastKey_length_le _

theorem filter_add (h : LayoutInv f entries b blocks current index) (hkey : entry.1 ≠ []) :
    b.filterBlockBuilder.add entry.1 = ⟨f, (entries ++ [entry]).map Prod.fst, []⟩ := by
  rw [h.file.filter, FilterBlockBuilder.add, if_neg hkey, List.map_append]
  rfl

/-- The block stays open. -/
theorem layoutInv_extend (h : LayoutInv f entries b blocks current index) (hkey : entry.1 ≠ [])
    (hspec : BlockSpec (current ++ [entry]))
    (hbelow : (blockOf (current ++ [entry])).size ≤ kMaxDataBlockSize) :
    LayoutInv f (entries ++ [entry])
      { b with
        filterBlockBuilder := b.filterBlockBuilder.add entry.1
        dataBlockBuilder := b.dataBlockBuilder.add entry.1 entry.2
        keyCount := asInt32 (b.keyCount + 1)
        preKey := entry.1 }
      blocks (current ++ [entry]) index where
  file := { h.file with filter := filter_add h hkey }
  added := by rw [← h.added, List.append_assoc]
  nonempty := h.nonempty
  block := by rw [blockOf_concat, h.block]
  spec := hspec
  small := hbelow
  whole := fun hlen => h.whole fun e he => hlen e (by simp [he])
  room := by
    have hroom := h.room
    have hlength := key_length_le hspec
    simp only
    omega
  large := h.large

/-- The block is put away, and pays for the key of the next index entry. -/
theorem layoutInv_cut (h : LayoutInv f entries b blocks current index) (hkey : entry.1 ≠ [])
    (hspec : BlockSpec (current ++ [entry])) {block : Bytes}
    (hdata : block = (blockOf (current ++ [entry])).finishDataBlock.data)
    (hover : kMaxDataBlockSize < (blockOf (current ++ [entry])).size) {w : FileWriter}
    (happend : appendAll b.fileWriter block = .ok w) {shortestKey : Bytes}
    (hshortest : shortestKey.length ≤ b.preKey.length + 1) {offset : ℤ}
    (hoffset : offset = asInt32 (b.filterBlockOffset.offset + asInt32 block.length)) :
    LayoutInv f (entries ++ [entry])
      { SSTableBuilder.addIndex
          { b with
            filterBlockBuilder := b.filterBlockBuilder.add entry.1
            dataBlockBuilder := DataBlockBuilder.empty
            keyCount := asInt32 (b.keyCount + 1)
            fileWriter := w
            filterBlockOffset := { b.filterBlockOffset with offset := offset } }
          shortestKey ⟨asInt32 block.length, offset⟩ with
        preKey := entry.1 }
      (blocks ++ [current ++ [entry]]) [] (index ++ [⟨shortestKey, ⟨asInt32 block.length, offset⟩⟩])
      where
  file := by
    refine h.file.putAway hdata happend rfl hoffset (filter_add h hkey) ?_ rfl rfl
    simp only [addIndex, IndexBlockBuilder.add, h.file.indexCleared]
    rfl
  added := by
    rw [← h.added]
    simp
  nonempty := by
    intro block hblock
    rcases List.mem_append.1 hblock with hblock | hblock
    · exact h.nonempty block hblock
    · rw [List.mem_singleton.1 hblock]
      simp
  block := rfl
  spec := ⟨rfl, rfl, rfl, le_rfl⟩
  small := Nat.zero_le _
  whole := by
    intro hlen
    have hlt := block_length_lt h.spec h.small hspec (hlen entry (by simp))
    rw [appendedBlocks_concat, blocksBytes_concat, h.whole fun e he => hlen e (by simp [he]),
      appended_of_lt hlt (hdata ▸ (appendAll_spec happend).1)]
  room := by
    have hroom := h.room
    have hlength := key_length_le hspec
    have hsize := size_le_finished (current ++ [entry])
    rw [indexBytes_concat, blocksBytes_concat, List.length_append, List.length_append,
      List.length_append, indexEntry_length, List.length_singleton]
    simp only
    omega
  large := by
    have hlarge := h.large
    have hsize := size_le_finished (current ++ [entry])
    rw [blocksBytes_concat, List.length_append, List.length_append, List.length_singleton,
      Nat.mul_succ]
    omega

/-- Adding a pair extends the current block, and may put it away. -/
theorem add_layoutInv {b' : SSTableBuilder} (h : LayoutInv f entries b blocks current index)
    (hkey : entry.1 ≠ []) (hcurrent : ∀ e ∈ current, e.1 ≠ [])
    (hrun : b.add entry.1 entry.2 = .ok b') :
    ∃ blocks' current' index', LayoutInv f (entries ++ [entry]) b' blocks' current' index' := by
  have hspec := blockSpec_concat h.spec h.small hcurrent hkey
  have hblock : b.dataBlockBuilder.add entry.1 entry.2 = blockOf (current ++ [entry]) := by
    rw [blockOf_concat, h.block]
  rcases add_cases hkey hrun with
    ⟨hbelow, rfl⟩ | ⟨block, w, shortestKey, hdata, hover, happend, hshortest, rfl⟩
  · rw [hblock] at hbelow
    exact ⟨_, _, _, layoutInv_extend h hkey hspec hbelow⟩
  · rw [hblock] at hdata hover
    exact ⟨_, _, _, layoutInv_cut h hkey hspec hdata hover happend
      (findShortestKey_length hshortest) rfl⟩

end Add

/-- A run of additions keeps it. -/
theorem addAll_layoutInv {f : BloomFilter} {b b' : SSTableBuilder} (h : LayoutInv f [] b [] [] [])
    {entries : List (Bytes × Bytes)} (hkeys : ∀ entry ∈ entries, entry.1 ≠ [])
    (hrun : b.addAll entries = .ok b') :
    ∃ blocks current index, LayoutInv f entries b' blocks current index := by
  refine run_history_invariant (fun entries b => (∀ entry ∈ entries, entry.1 ≠ []) →
    ∃ blocks current index, LayoutInv f entries b blocks current index) ?_ ?_ hrun hkeys
  · intro _
    exact ⟨[], [], [], h⟩
  · intro entries b entry b' hinv hadd hkeys'
    rcases hinv fun e he => hkeys' e (by simp [he]) with ⟨blocks, current, index, hb⟩
    refine add_layoutInv hb (hkeys' entry (by simp)) ?_ hadd
    intro e he
    refine hkeys' e ?_
    rw [← hb.added]
    simp [he]

/-- The last block is put away as well, if there is one. -/
theorem finishBlocks_cases {b b' : SSTableBuilder} (hrun : b.finishBlocks = .ok b') :
    (b.dataBlockBuilder.size = 0 ∧ b' = b) ∨
    ∃ block w key, 0 < b.dataBlockBuilder.size ∧
      block = b.dataBlockBuilder.finishDataBlock.data ∧
      appendAll b.fileWriter block = .ok w ∧ bumpLast b.preKey = .ok key ∧
      b' = { SSTableBuilder.addIndex
          { b with fileWriter := w, preKey := key, dataBlockBuilder := DataBlockBuilder.empty }
          key ⟨asInt32 block.length, b.filterBlockOffset.offset⟩ with
        filterBlockOffset :=
          { b.filterBlockOffset with
            offset := asInt32 (b.filterBlockOffset.offset + asInt32 block.length) } } := by
  rw [finishBlocks] at hrun
  split at hrun
  · rename_i hpos
    rcases bind_eq_ok.1 hrun with ⟨w, happend, hrun⟩
    rcases bind_eq_ok.1 hrun with ⟨key, hbump, hrun⟩
    cases hrun
    exact Or.inr ⟨_, w, key, hpos, rfl, happend, hbump, rfl⟩
  · rename_i hzero
    cases hrun
    exact Or.inl ⟨by omega, rfl⟩

/-- The last block, whose index entry says where it starts. -/
theorem fileInv_last {f : BloomFilter} {entries current : List (Bytes × Bytes)} {b : SSTableBuilder}
    {blocks : List (List (Bytes × Bytes))} {index : List IndexBlock}
    (h : LayoutInv f entries b blocks current index) {block : Bytes}
    (hdata : block = (blockOf current).finishDataBlock.data) {w : FileWriter}
    (happend : appendAll b.fileWriter block = .ok w) (key : Bytes) :
    FileInv f (entries.map Prod.fst)
      { SSTableBuilder.addIndex
          { b with fileWriter := w, preKey := key, dataBlockBuilder := DataBlockBuilder.empty }
          key ⟨asInt32 block.length, b.filterBlockOffset.offset⟩ with
        filterBlockOffset :=
          { b.filterBlockOffset with
            offset := asInt32 (b.filterBlockOffset.offset + asInt32 block.length) } }
      (blocks ++ [current])
      (index ++ [⟨key, ⟨asInt32 block.length, b.filterBlockOffset.offset⟩⟩]) := by
  refine h.file.putAway hdata happend rfl rfl ?_ ?_ rfl rfl
  · exact h.file.filter
  · simp only [addIndex, IndexBlockBuilder.add, h.file.indexCleared]
    rfl

theorem finishBlocks_layout {f : BloomFilter} {entries : List (Bytes × Bytes)}
    {b b' : SSTableBuilder} {blocks : List (List (Bytes × Bytes))} {current : List (Bytes × Bytes)}
    {index : List IndexBlock} (h : LayoutInv f entries b blocks current index)
    (hrun : b.finishBlocks = .ok b') :
    ∃ blocks' index', FileInv f (entries.map Prod.fst) b' blocks' index' ∧
      blocks'.flatten = entries ∧ (∀ block ∈ blocks', block ≠ []) ∧
      ((∀ entry ∈ entries, entry.1.length + entry.2.length < 2 ^ 31) →
        appendedBlocks blocks' = blocksBytes blocks') ∧
      ((blocksBytes blocks').length < 2 ^ 31 → (indexBytes index').length < 2 ^ 32) := by
  have hroom := h.room
  have hlarge := h.large
  rw [kMaxDataBlockSize] at hroom hlarge
  rcases finishBlocks_cases hrun with
    ⟨hsize, rfl⟩ | ⟨block, w, key, hpos, hdata, happend, hbump, rfl⟩
  · -- nothing is left
    rw [h.block, h.spec.size_eq_zero] at hsize
    refine ⟨blocks, index, h.file, ?_, h.nonempty, h.whole, fun hlen => by omega⟩
    rw [← h.added, hsize, List.append_nil]
  · -- the open block is the last one, and the room that was left pays for its key
    rw [h.block] at hdata
    have hbumpLen := bumpLast_length hbump
    have hcurrent : current ≠ [] := by
      rw [Ne, ← h.spec.size_eq_zero, ← h.block]
      exact hpos.ne'
    refine ⟨blocks ++ [current], index ++ [⟨key, ⟨asInt32 block.length,
      b.filterBlockOffset.offset⟩⟩], fileInv_last h hdata happend key, ?_, ?_, ?_, ?_⟩
    · rw [← h.added]
      simp
    · intro block hblock'
      rcases List.mem_append.1 hblock' with hblock' | hblock'
      · exact h.nonempty block hblock'
      · rw [List.mem_singleton.1 hblock']
        exact hcurrent
    · intro hlen
      rw [appendedBlocks_concat, blocksBytes_concat, h.whole hlen,
        appended_eq_self (open_block_length_lt h.spec h.small)]
    · rw [blocksBytes_concat, indexBytes_concat, List.length_append, List.length_append,
        indexEntry_length]
      simp only
      omega

end SSTableBuilder

/-! ## Filter, index and footer -/

/-- Making a filter keeps the length of its bits. -/
theorem BloomFilter.createFilter_length {f g : BloomFilter} {keys : List Bytes}
    (hrun : f.createFilter keys = .ok g) : g.bitsArray.length = f.bitsArray.length := by
  rcases bind_eq_ok.1 hrun with ⟨_, -, hrun⟩
  cases hrun
  simp only
  rw [← List.foldl_flatMap, length_foldl_setBit]

/-- The number of bits is an `int32_t`. -/
theorem BloomFilter.new_length {fm : FloatMath} {keysNum : ℤ} {f : BloomFilter}
    (hbits : -2 ^ 31 ≤ fm.bitsNum keysNum) (hrun : BloomFilter.new fm keysNum = .ok f) :
    f.bitsArray.length ≤ 2 ^ 28 := by
  rcases bind_eq_ok.1 hrun with ⟨_, -, hrun⟩
  rcases bind_eq_ok.1 hrun with ⟨_, -, hrun⟩
  cases hrun
  simp only [List.length_replicate]
  by_cases hpos : 0 ≤ -1 * fm.bitsNum keysNum + 7
  · rw [Int.tdiv_eq_ediv_of_nonneg hpos]
    omega
  · have hneg : -1 * fm.bitsNum keysNum + 7 = -(fm.bitsNum keysNum - 7) := by
      omega
    have hdiv := Int.tdiv_nonneg (a := fm.bitsNum keysNum - 7) (b := 8) (by omega) (by omega)
    rw [hneg, Int.neg_tdiv]
    omega

/-- The block of a filter, whether there are keys or not. -/
theorem FilterBlockBuilder.finishFilterBlock_ok {b b' : FilterBlockBuilder}
    (hrun : b.finishFilterBlock = .ok b') :
    ∃ policy, b.filterPolicy.createFilter b.keyData = .ok policy ∧
      b' = ⟨policy, b.keyData, filterBytes policy⟩ := by
  rcases bind_eq_ok.1 hrun with ⟨b₁, hcreate, hrun⟩
  cases hrun
  rw [createFilter] at hcreate
  split at hcreate
  · rename_i hkeys
    cases hcreate
    refine ⟨b.filterPolicy, ?_, rfl⟩
    rw [hkeys, BloomFilter.createFilter, require_of (Or.inl rfl)]
    rfl
  · rcases bind_eq_ok.1 hcreate with ⟨policy, hpolicy, hcreate⟩
    cases hcreate
    exact ⟨policy, hpolicy, rfl⟩

/-- A filter with bits can be made of any keys, as often as one likes. -/
theorem finishFilterBlock_progress {f : BloomFilter} (hf : f.Sized) (keys : List Bytes)
    (data : Bytes) :
    ∃ g, (FilterBlockBuilder.mk f keys data).finishFilterBlock = .ok ⟨g, keys, filterBytes g⟩ ∧
      g.Sized := by
  rw [FilterBlockBuilder.finishFilterBlock, FilterBlockBuilder.createFilter]
  split
  · exact ⟨f, rfl, hf⟩
  · rcases BloomFilter.createFilter_spec hf keys with ⟨g, hcreate, hg, -⟩
    simp only [hcreate, ok_bind, pure_eq_ok]
    exact ⟨g, rfl, hg.sized hf⟩

theorem length_filterBytes (policy : BloomFilter) :
    (filterBytes policy).length = policy.bitsArray.length + 4 := by
  rw [filterBytes, List.length_append, length_encodeFixed32]

/-- What `finish_sst` writes behind the data blocks. -/
theorem SSTableBuilder.finishMeta_layout {fm : FloatMath} {f : BloomFilter} {keys : List Bytes}
    {b b' : SSTableBuilder} {blocks : List (List (Bytes × Bytes))} {index : List IndexBlock}
    (h : FileInv f keys b blocks index) (hbits : f.bitsArray.length ≤ 2 ^ 28)
    (hrun : b.finishMeta fm = .ok b') (hsize : b'.fileWriter.file.length < 2 ^ 31) :
    0 ≤ asInt32 (indexBytes index).length ∧ ∃ policy₁ policy metaBlock indexBlock,
      f.createFilter keys = .ok policy₁ ∧ policy₁.createFilter keys = .ok policy ∧
        SstLayout b'.fileWriter.file (appendedBlocks blocks) (filterBytes policy)
          (appended (indexBytes index)) metaBlock indexBlock := by
  rcases finishMeta_cases hrun with ⟨filter₁, filter₂, metaBlock, indexBlock, w₁, w₂, w₃, hfilter₁,
    hfilter₂, hmeta, hindex, hw₁, hw₂, hw₃, hfile⟩
  rw [h.filter] at hfilter₁
  rcases FilterBlockBuilder.finishFilterBlock_ok hfilter₁ with ⟨policy₁, hpolicy₁, rfl⟩
  rcases FilterBlockBuilder.finishFilterBlock_ok hfilter₂ with ⟨policy, hpolicy, rfl⟩
  simp only at hpolicy₁ hpolicy hmeta hw₁
  -- the second filter is as long as the first
  have hlen : (filterBytes policy).length = (filterBytes policy₁).length := by
    rw [length_filterBytes, length_filterBytes, BloomFilter.createFilter_length hpolicy]
  have hfits : (filterBytes policy).length < 2 ^ 31 := by
    rw [hlen, length_filterBytes, BloomFilter.createFilter_length hpolicy₁]
    omega
  have hfooter : (b.footerBuilder.add metaBlock indexBlock).data =
      encodeOffsetInfo metaBlock ++ encodeOffsetInfo indexBlock := by
    rw [FooterBuilder.add, h.footerCleared, List.nil_append]
  have hfooterFits : (encodeOffsetInfo metaBlock ++ encodeOffsetInfo indexBlock).length < 2 ^ 31 := by
    simp
  rw [h.indexData] at hw₂ hindex
  rcases appendAll_spec hw₂ with ⟨hpos, hstream₂⟩
  have hparts : b'.fileWriter.file = appendedBlocks blocks ++ filterBytes policy ++
      appended (indexBytes index) ++ (encodeOffsetInfo metaBlock ++ encodeOffsetInfo indexBlock) := by
    rw [hfile, (appendAll_spec hw₃).2, hstream₂, (appendAll_spec hw₁).2, h.stream, hfooter,
      appended_eq_self hfits, appended_eq_self hfooterFits]
  refine ⟨hpos, policy₁, policy, metaBlock, indexBlock, hpolicy₁, hpolicy, ?_⟩
  rw [hparts] at hsize ⊢
  simp only [List.length_append] at hsize
  -- no sum is wrapped around
  have hoffset : metaBlock = ⟨(filterBytes policy).length, (appendedBlocks blocks).length⟩ := by
    rw [hmeta, h.offset, ← hlen, asInt32_of_lt (Int.natCast_nonneg _) (by omega),
      asInt32_of_lt (Int.natCast_nonneg _) (by omega)]
  refine sstLayout_of_lengths ?_ hoffset ?_
  · simp only [List.length_append]
    omega
  · rw [hindex, hoffset, length_appended hpos, Nat.cast_add,
      asInt32_of_lt (x := (appendedBlocks blocks).length + (filterBytes policy).length)
        (by omega) (by omega)]

/-- The layout of a table file agrees with its footer. The pairs of the blocks are
the pairs added, the filter is made of their keys, and the index has one entry for
each block. Blocks and index are there as the writer took them in, which for
pairs below 2 GiB is byte for byte. Without a pair the builder stops at an
assertion, and it stops at another one when it meets keys out of order. -/
theorem sst_layout (fm : FloatMath) {keysNum : ℤ} (hbits : -2 ^ 31 ≤ fm.bitsNum keysNum)
    {entries : List (Bytes × Bytes)} (hkeys : ∀ entry ∈ entries, entry.1 ≠ [])
    {b₀ b b' : SSTableBuilder}
    (hnew : SSTableBuilder.new fm keysNum (FileWriter.openFile []) = .ok b₀)
    (hadd : b₀.addAll entries = .ok b) (hfinish : b.finishSst fm = .ok b')
    (hsize : b'.fileWriter.file.length < 2 ^ 31) :
    ∃ blocks index policy metaBlock indexBlock,
      blocks.flatten = entries ∧ (∀ block ∈ blocks, block ≠ []) ∧ index.length = blocks.length ∧
        tableFilter fm keysNum (entries.map Prod.fst) = .ok policy ∧
        SstLayout b'.fileWriter.file (appendedBlocks blocks) (filterBytes policy)
          (appended (indexBytes index)) metaBlock indexBlock ∧
        ((∀ entry ∈ entries, entry.1.length + entry.2.length < 2 ^ 31) →
          appendedBlocks blocks = blocksBytes blocks ∧
            appended (indexBytes index) = indexBytes index) := by
  rcases SSTableBuilder.new_layoutInv hnew with ⟨f, hf, hb₀⟩
  rcases SSTableBuilder.addAll_layoutInv hb₀ hkeys hadd with ⟨_, _, _, hb⟩
  rcases bind_eq_ok.1 hfinish with ⟨b₁, hblocks, hmeta⟩
  rcases SSTableBuilder.finishBlocks_layout hb hblocks with
    ⟨blocks, index, hfile, hflatten, hnonempty, hwhole, hroom⟩
  rcases SSTableBuilder.finishMeta_layout hfile (BloomFilter.new_length hbits hf) hmeta hsize with
    ⟨hpos, policy₁, policy, metaBlock, indexBlock, hpolicy₁, hpolicy, hlayout⟩
  have hfilter : tableFilter fm keysNum (entries.map Prod.fst) = .ok policy := by
    rw [tableFilter, hf, ok_bind, hpolicy₁, ok_bind, hpolicy]
  refine ⟨blocks, index, policy, metaBlock, indexBlock, hflatten, hnonempty, hfile.perBlock, hfilter,
    hlayout, ?_⟩
  intro hlen
  refine ⟨hwhole hlen, appended_of_lt (hroom ?_) hpos⟩
  -- the blocks are part of the file
  rcases hlayout.parts with ⟨footer, -, hparts⟩
  rw [hparts, hwhole hlen] at hsize
  simp only [List.length_append] at hsize
  omega

/-- Three pairs in two blocks. -/
theorem sst_layout_split :
    ∃ b₀ b b', SSTableBuilder.new decimalMath 3 (FileWriter.openFile []) = .ok b₀ ∧
      b₀.addAll splitEntries = .ok b ∧ b.finishSst decimalMath = .ok b' ∧
      ∃ blocks index policy metaBlock indexBlock,
        blocks.flatten = splitEntries ∧
          (∀ block ∈ blocks, block ≠ []) ∧ index.length = blocks.length ∧
          tableFilter decimalMath 3 (splitEntries.map Prod.fst) = .ok policy ∧
          SstLayout b'.fileWriter.file (appendedBlocks blocks) (filterBytes policy)
            (appended (indexBytes index)) metaBlock indexBlock ∧
          ((∀ entry ∈ splitEntries, entry.1.length + entry.2.length < 2 ^ 31) →
            appendedBlocks blocks = blocksBytes blocks ∧
              appended (indexBytes index) = indexBytes index) := by
  rcases splitEntries_build with ⟨file, hbuild, hlen⟩
  rcases SSTableBuilder.build_cases hbuild with ⟨b₀, b, b', hnew, hadd, hfinish, rfl⟩
  exact ⟨b₀, b, b', hnew, hadd, hfinish,
    sst_layout decimalMath (by decide) splitEntries_keys hnew hadd hfinish hlen⟩

end Smallkv
