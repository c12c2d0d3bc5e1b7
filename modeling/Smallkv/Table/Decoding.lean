import Smallkv.DB.FlushComplete
import Smallkv.Table.IndexReload
import Smallkv.Table.RestartPoints

/-!
# Table.Decoding — what can be told from a table alone

The parser of the code never gets to its end, and half of what it would rely on is
not where it looks. Still, nothing is missing in a table: the footer says where the
index is, the index how long the blocks are, and a block how many restart points are
behind its records. `decodeTable` reads a file in this way. It does not use the starts
of the blocks, which `add` gets wrong, and it has the pairs of every table below 2 GiB.
-/

namespace Smallkv

open Fallible Extents

/-! ## A reader -/

/-- The records of a block are in front of its restart points, whose number is in the
last four bytes. -/
def decodeBlock (block : Bytes) : Option (List (Bytes × Bytes)) := do
  let (restartPointNum, _) ← takeFixed32 (block.drop (block.length - 4))
  decodeRecords (block.take (block.length - 4 - 12 * restartPointNum))

/-- The blocks are cut off the front of the file, as long as the index says. -/
def decodeTable (file : Bytes) : Option (List (Bytes × Bytes)) := do
  let indexBlock ← (readOffsetInfo file (file.length - 8)).toOption
  let index ← (SSTParser.parseIndex file (asInt32 (indexBlock.offset + indexBlock.size))
    (file.length + 1) indexBlock.offset []).toOption
  let blocks ← ((index.map fun e => e.offsetInfo.size.toNat).splitLengths file).mapM decodeBlock
  pure blocks.flatten

/-! ## Blocks -/

theorem decodeBlock_blockOf {entries : List (Bytes × Bytes)} (hne : entries ≠ [])
    (hkeys : ∀ entry ∈ entries, entry.1 ≠ []) (hlen : entries.length < 2 ^ 31)
    (hfits : ∀ entry ∈ entries, FitsRecord entry) :
    decodeBlock (blockOf entries).finishDataBlock.data = some entries := by
  rcases partition_layout (blockFields hkeys) hne hlen with ⟨points, hdata, hpoints⟩
  have hnum : groupNum entries < 2 ^ 32 := by
    have hle := groupNum_le entries
    omega
  have hlength : (blockOf entries).finishDataBlock.data.length - 4 =
      (writeRecords entries ++ points).length := by
    rw [hdata, List.length_append, length_encodeFixed32, Nat.add_sub_cancel]
  have hrecords : (writeRecords entries ++ points).length - 12 * groupNum entries =
      (writeRecords entries).length := by
    rw [List.length_append, hpoints, Nat.add_sub_cancel]
  have htake := takeFixed32_append hnum []
  rw [List.append_nil] at htake
  rw [decodeBlock, hlength, hdata, List.drop_left, htake]
  simp only [Option.bind_eq_bind, Option.bind_some]
  rw [hrecords, List.append_assoc, List.take_left, decodeRecords_writeRecords hfits]

theorem decodeBlocks {blocks : List (List (Bytes × Bytes))}
    (hblocks : ∀ block ∈ blocks, decodeBlock (blockOf block).finishDataBlock.data = some block) :
    (blocks.map fun block => (blockOf block).finishDataBlock.data).mapM decodeBlock =
      some blocks := by
  induction blocks with
  | nil => rfl
  | cons block blocks ih =>
      rw [List.map_cons, List.mapM_cons, hblocks block List.mem_cons_self,
        ih fun b hb => hblocks b (List.mem_cons_of_mem block hb)]
      rfl

/-! ## Sizes -/

namespace Plan

/-- The index has the size of every block, and numbers that an `int32_t` can hold. -/
structure SizesListed (p : Plan) : Prop where
  sizes : (p.index.map fun e => e.offsetInfo.size) = p.blocks.map blockSize
  fields : ∀ e ∈ p.index, e.offsetInfo.IsInt32
  offset : -2 ^ 31 ≤ p.offset ∧ p.offset < 2 ^ 31

theorem start_sizesListed : start.SizesListed := ⟨rfl, by simp [start], by decide⟩

/-- One more block, and an entry for it. -/
theorem SizesListed.putAway {p : Plan} (h : p.SizesListed) (pairs : List (Bytes × Bytes))
    (key : Bytes) {offset offset' : ℤ} (hoffset : -2 ^ 31 ≤ offset ∧ offset < 2 ^ 31)
    (hoffset' : -2 ^ 31 ≤ offset' ∧ offset' < 2 ^ 31) (preKey : Bytes) :
    (Plan.mk (p.blocks ++ [pairs]) (p.index ++ [⟨key, ⟨blockSize pairs, offset⟩⟩]) [] preKey
      offset').SizesListed where
  sizes := by simp [h.sizes]
  fields := by
    intro e he
    rcases List.mem_append.1 he with he | he
    · exact h.fields e he
    · have hsize := asInt32_bounds (blockOf pairs).finishDataBlock.data.length
      rw [← blockSize] at hsize
      rw [List.mem_singleton.1 he]
      simpa only [OffsetInfo.IsInt32] using And.intro hsize hoffset
  offset := hoffset'

theorem add_sizesListed {p p' : Plan} (h : p.SizesListed) {entry : Bytes × Bytes}
    (hrun : p.add entry = .ok p') : p'.SizesListed := by
  rcases add_cases hrun with ⟨-, rfl⟩ | ⟨shortestKey, -, -, rfl⟩
  · exact ⟨h.sizes, h.fields, h.offset⟩
  · exact h.putAway _ shortestKey (asInt32_bounds _) (asInt32_bounds _) entry.1

theorem finish_sizesListed {p p' : Plan} (h : p.SizesListed) (hrun : p.finish = .ok p') :
    p'.SizesListed := by
  rcases finish_cases hrun with ⟨-, rfl⟩ | ⟨key, -, -, rfl⟩
  · exact h
  · exact h.putAway p.current key h.offset (asInt32_bounds _) key

theorem ofEntries_sizesListed {entries : List (Bytes × Bytes)} {p : Plan}
    (hplan : ofEntries entries = .ok p) : p.SizesListed := by
  rcases bind_eq_ok.1 hplan with ⟨p₀, hrun, hfinish⟩
  refine finish_sizesListed ?_ hfinish
  exact run_invariant SizesListed (fun _ _ _ h => add_sizesListed h) start_sizesListed hrun

end Plan

/-! ## Files -/

/-- The last block of a plan is no longer than an open block may be, so the writer takes
in all of it, too. -/
theorem Follows.finish_whole {f : BloomFilter} {entries : List (Bytes × Bytes)}
    {b : SSTableBuilder} {p p' : Plan} (h : Follows f entries b p)
    (hlen : ∀ entry ∈ entries, entry.1.length + entry.2.length < 2 ^ 31)
    (hrun : p.finish = .ok p') :
    appendedBlocks p'.blocks = blocksBytes p'.blocks ∧ p'.blocks.flatten = entries ∧
      ∀ block ∈ p'.blocks, block ≠ [] := by
  have hadded := h.layout.added
  rcases Plan.finish_cases hrun with ⟨hnil, rfl⟩ | ⟨key, hne, -, rfl⟩
  · rw [hnil, List.append_nil] at hadded
    exact ⟨h.layout.whole hlen, hadded, h.layout.nonempty⟩
  · refine ⟨?_, by rw [List.flatten_append, List.flatten_singleton, hadded], ?_⟩
    · rw [appendedBlocks_concat, blocksBytes_concat, h.layout.whole hlen,
        appended_eq_self (SSTableBuilder.open_block_length_lt h.layout.spec h.layout.small)]
    · intro block hblock
      rcases List.mem_append.1 hblock with hblock | hblock
      · exact h.layout.nonempty block hblock
      · rw [List.mem_singleton.1 hblock]
        exact hne

/-- The parts of a table below 2 GiB, as its plan has them. -/
theorem build_parts {fm : FloatMath} {keysNum : ℤ} (hbits : -2 ^ 31 ≤ fm.bitsNum keysNum)
    {entries : List (Bytes × Bytes)} (hkeys : ∀ entry ∈ entries, entry.1 ≠ [])
    (hlen : ∀ entry ∈ entries, entry.1.length + entry.2.length < 2 ^ 31) {file : Bytes}
    (hrun : SSTableBuilder.build fm keysNum entries = .ok file) (hsize : file.length < 2 ^ 31) :
    ∃ (p : Plan) (filter : Bytes) (metaBlock indexBlock : OffsetInfo), p.SizesListed ∧
      p.blocks.flatten = entries ∧ (∀ block ∈ p.blocks, block ≠ []) ∧
      SstLayout file (blocksBytes p.blocks) filter (indexBytes p.index) metaBlock indexBlock := by
  rcases SSTableBuilder.build_cases hrun with ⟨b₀, b, b', hnew, hadd, hfinish, rfl⟩
  rcases SSTableBuilder.new_layoutInv hnew with ⟨f, hf, hlayout₀⟩
  rcases SSTableBuilder.follows_new hnew with ⟨f', hb₀⟩
  obtain rfl : f = f' := by
    have hsame := hlayout₀.file.filter.symm.trans hb₀.layout.file.filter
    injection hsame
  rcases SSTableBuilder.follows_addAll hb₀ hkeys hadd with ⟨p₀, hp₀, hb⟩
  rcases bind_eq_ok.1 hfinish with ⟨b₁, hblocks, hmeta⟩
  rcases SSTableBuilder.finishBlocks_follows hb hblocks with ⟨p, hp, hfile, -⟩
  rcases hb.finish_whole hlen hp with ⟨hwhole, hflatten, hnonempty⟩
  rcases SSTableBuilder.finishMeta_layout hfile (BloomFilter.new_length hbits hf) hmeta hsize with
    ⟨hpos, policy₁, policy, metaBlock, indexBlock, -, -, hlayout⟩
  -- the index has room, whichever way its entries are told apart
  have hindex : (indexBytes p.index).length < 2 ^ 32 := by
    rcases SSTableBuilder.finishBlocks_layout hb.layout hblocks with
      ⟨blocks', index', hfile', -, -, hwhole', hroom⟩
    rw [← hfile.indexData, hfile'.indexData]
    refine hroom ?_
    rcases hlayout.parts with ⟨footer, -, hparts⟩
    rw [hparts, ← hfile.stream, hfile'.stream, hwhole' hlen] at hsize
    simp only [List.length_append] at hsize
    omega
  rw [hwhole, appended_of_lt hindex hpos] at hlayout
  exact ⟨p, _, metaBlock, indexBlock, Plan.ofEntries_sizesListed (bind_eq_ok.2 ⟨p₀, hp₀, hp⟩),
    hflatten, hnonempty, hlayout⟩

/-- The index of a table is parsed as it was planned. -/
theorem SstLayout.index_parsed {file dataBlocks filter : Bytes} {p : Plan}
    {metaBlock indexBlock : OffsetInfo}
    (h : SstLayout file dataBlocks filter (indexBytes p.index) metaBlock indexBlock)
    (hlisted : p.SizesListed) (hsize : file.length < 2 ^ 31) :
    SSTParser.parseIndex file (asInt32 (indexBlock.offset + indexBlock.size)) (file.length + 1)
      indexBlock.offset [] = .ok p.index := by
  rcases h.parts with ⟨footer, hfooter, hparts⟩
  rcases h.indexAt with ⟨hoffset, hindexSize⟩
  have htotal : file.length =
      (dataBlocks ++ filter).length + (indexBytes p.index).length + footer.length := by
    rw [hparts]
    simp only [List.length_append]
  have hstart : indexBlock.offset = (dataBlocks ++ filter).length := by
    rw [hoffset, List.length_append, Nat.cast_add]
  have hcount := SSTParser.length_le_indexBytes p.index
  rw [hstart, hindexSize, asInt32_of_lt (by omega) (by omega)]
  exact (SSTParser.parseIndex_spec hlisted.fields hparts (by omega) rfl (by omega) []).1

theorem decodeTable_build {fm : FloatMath} {keysNum : ℤ} (hbits : -2 ^ 31 ≤ fm.bitsNum keysNum)
    {entries : List (Bytes × Bytes)} (hkeys : ∀ entry ∈ entries, entry.1 ≠ [])
    (hlen : ∀ entry ∈ entries, entry.1.length + entry.2.length < 2 ^ 31) {file : Bytes}
    (hrun : SSTableBuilder.build fm keysNum entries = .ok file) (hsize : file.length < 2 ^ 31) :
    decodeTable file = some entries := by
  rcases build_parts hbits hkeys hlen hrun hsize with
    ⟨p, filter, metaBlock, indexBlock, hlisted, hflatten, hnonempty, hlayout⟩
  rcases hlayout.parts with ⟨footer, -, hparts⟩
  have hmem : ∀ block ∈ p.blocks, ∀ entry ∈ block, entry ∈ entries := by
    intro block hblock entry hentry
    rw [← hflatten]
    exact List.mem_flatten.2 ⟨block, hblock, hentry⟩
  have hblockLen : ∀ block ∈ p.blocks,
      (blockOf block).finishDataBlock.data.length < 2 ^ 31 := by
    intro block hblock
    have hle := (List.sublist_flatten_of_mem
      (List.mem_map_of_mem (f := fun block => (blockOf block).finishDataBlock.data) hblock)).length_le
    rw [← List.flatMap_def, ← blocksBytes] at hle
    rw [hparts] at hsize
    simp only [List.length_append] at hsize
    omega
  -- the sizes in the index are those of the blocks
  have hsizes : (p.index.map fun e => e.offsetInfo.size.toNat) =
      (p.blocks.map fun block => (blockOf block).finishDataBlock.data).map List.length := by
    have hlist := congrArg (List.map Int.toNat) hlisted.sizes
    rw [List.map_map, List.map_map] at hlist
    rw [List.map_map]
    refine hlist.trans (List.map_congr_left fun block hblock => ?_)
    have hlt := hblockLen block hblock
    rw [Function.comp_apply, Function.comp_apply, Plan.blockSize,
      asInt32_of_lt (Int.natCast_nonneg _) (by omega), Int.toNat_natCast]
  have hfile : file = (p.blocks.map fun block => (blockOf block).finishDataBlock.data).flatten ++
      (filter ++ indexBytes p.index ++ footer) := by
    rw [hparts, blocksBytes, List.flatMap_def]
    simp only [List.append_assoc]
  have hdecode : ∀ block ∈ p.blocks,
      decodeBlock (blockOf block).finishDataBlock.data = some block := by
    intro block hblock
    have hblockKeys : ∀ entry ∈ block, entry.1 ≠ [] :=
      fun entry hentry => hkeys entry (hmem block hblock entry hentry)
    refine decodeBlock_blockOf (hnonempty block hblock) hblockKeys ?_ ?_
    · have hrecords := writeRecords_length block
      have hle := size_le_finished block
      have hlt := hblockLen block hblock
      rw [DataBlockBuilder.size, (blockFields hblockKeys).data] at hle
      omega
    · intro entry hentry
      have hshort := hlen entry (hmem block hblock entry hentry)
      constructor
      · omega
      · omega
  simp only [decodeTable, hlayout.readIndex, hlayout.index_parsed hlisted hsize, hsizes,
    Except.toOption, Option.bind_eq_bind, Option.bind_some]
  rw [hfile, splitLengths_flatten, decodeBlocks hdecode]
  simp [hflatten]

/-- Every table below 2 GiB has its pairs in it, but for those with an empty key: from
its bytes alone one can tell what it was built of. -/
theorem table_decodes (fm : FloatMath) {keysNum : ℤ} (hbits : -2 ^ 31 ≤ fm.bitsNum keysNum)
    {entries : List (Bytes × Bytes)}
    (hlen : ∀ entry ∈ withKey entries, entry.1.length + entry.2.length < 2 ^ 31) {file : Bytes}
    (hrun : SSTableBuilder.build fm keysNum entries = .ok file) (hsize : file.length < 2 ^ 31) :
    decodeTable file = some (withKey entries) := by
  rw [← build_withKey] at hrun
  exact decodeTable_build hbits (withKey_keys entries) hlen hrun hsize

/-- A block whose index entry starts where the block ends is found all the same. -/
theorem table_decodes_cut :
    ∃ file, SSTableBuilder.build decimalMath 2 cutEntries = .ok file ∧
      decodeTable file = some (withKey cutEntries) := by
  rcases cutEntries_build with ⟨file, hfile, hlen⟩
  exact ⟨file, hfile, table_decodes decimalMath (by decide) (by decide +kernel) hfile hlen⟩

end Smallkv
