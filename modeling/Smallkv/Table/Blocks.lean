import Smallkv.Table.Groups

/-!
# Table.Blocks — no pair is lost between blocks

What a data block builder holds is determined by the pairs of its block
(`blockOf`), and its record section is read back as these pairs. The invariant
of the table builder is that the pairs added so far are those of the blocks
written, one block after the other, and then those of the block that is being
filled.
-/

namespace Smallkv

open Fallible PrefixCode

/-! ## One block -/

/-- The builder's counter and last key are the state that the records are read
with, and its data are the records. -/
structure BlockSpec (entries : List (Bytes × Bytes)) : Prop where
  recordNum : (blockOf entries).recordNum = entries.length
  preKey : (blockOf entries).preKey = (nextAll RecordState.next RecordState.start entries).2
  data : (blockOf entries).data = writeRecords entries
  groups : (blockOf entries).recordGroupOffset.length ≤ entries.length

theorem blockOf_spec {entries : List (Bytes × Bytes)} (hkeys : ∀ entry ∈ entries, entry.1 ≠ [])
    (hlen : entries.length < 2 ^ 31) : BlockSpec entries := by
  have h := blockFields hkeys
  constructor
  case recordNum => rw [h.recordNum, asInt32_of_lt (Int.natCast_nonneg _) (by omega)]
  case preKey => exact h.preKey
  case data => exact h.data
  case groups =>
    rw [h.groupOffsets, List.length_map, List.length_range]
    exact groupNum_le entries

/-- A record takes twelve bytes or more. -/
theorem writeRecords_length (entries : List (Bytes × Bytes)) :
    12 * entries.length ≤ (writeRecords entries).length := by
  induction entries using List.reverseRecOn with
  | nil => exact le_rfl
  | append_singleton entries entry ih =>
      have hrecord := (writeRecord_length
        (nextAll RecordState.next RecordState.start entries) entry).1
      rw [writeRecords, encodeAll_concat, ← writeRecords]
      simp only [List.length_append, List.length_singleton]
      omega

theorem restartPoints_length (recordNum lastOffset : ℤ) (offsets : List ℤ) :
    (DataBlockBuilder.restartPoints recordNum lastOffset offsets).length = 12 * offsets.length := by
  induction offsets with
  | nil => rfl
  | cons offset offsets ih =>
      cases offsets with
      | nil => simp [DataBlockBuilder.restartPoints, DataBlockBuilder.restartPoint]
      | cons next rest =>
          rw [DataBlockBuilder.restartPoints, List.length_append, ih]
          simp [DataBlockBuilder.restartPoint]
          omega

theorem trailer_length {entries : List (Bytes × Bytes)} (h : BlockSpec entries) :
    (blockOf entries).trailer.length ≤ 12 * entries.length + 4 := by
  have hgroups := h.groups
  rw [DataBlockBuilder.trailer, List.length_append, restartPoints_length, length_encodeFixed32]
  omega

/-- The limit on a block keeps the number of its records small. -/
theorem length_le_of_size {entries : List (Bytes × Bytes)} (h : BlockSpec entries)
    (hsize : (blockOf entries).size ≤ kMaxDataBlockSize) : entries.length ≤ 341 := by
  have hrecords := writeRecords_length entries
  rw [DataBlockBuilder.size, h.data, kMaxDataBlockSize] at hsize
  omega

theorem BlockSpec.size_eq_zero {entries : List (Bytes × Bytes)} (h : BlockSpec entries) :
    (blockOf entries).size = 0 ↔ entries = [] := by
  have hrecords := writeRecords_length entries
  rw [DataBlockBuilder.size, h.data]
  constructor
  · intro hsize
    exact List.eq_nil_of_length_eq_zero (by omega)
  · rintro rfl
    rfl

/-! ## What is written -/

/-- What `append(data.data(), static_cast<int32_t>(data.size()))` takes in. -/
def appended (data : Bytes) : Bytes := data.take (asInt32 data.length).toNat

theorem appended_eq_self {data : Bytes} (h : data.length < 2 ^ 31) : appended data = data := by
  rw [appended, asInt32_of_lt (Int.natCast_nonneg _) (by omega)]
  simp

theorem length_appended {data : Bytes} (h : 0 ≤ asInt32 data.length) :
    ((appended data).length : ℤ) = asInt32 data.length := by
  have hle := asInt32_le_self data.length
  rw [appended, List.length_take]
  omega

/-- A length that is negative as an `int32_t` is refused. -/
theorem appendAll_spec {w w' : FileWriter} {data : Bytes}
    (hrun : SSTableBuilder.appendAll w data = .ok w') :
    0 ≤ asInt32 data.length ∧ w'.stream = w.stream ++ appended data := by
  refine ⟨?_, FileWriter.append_ok hrun⟩
  rw [SSTableBuilder.appendAll, FileWriter.append] at hrun
  split at hrun
  · omega
  · rcases bind_eq_ok.1 hrun with ⟨_, hcheck, -⟩
    exact (require_eq_ok.1 hcheck).1

/-- Below 4 GiB nothing is lost in what is not refused. -/
theorem appended_of_lt {data : Bytes} (hlen : data.length < 2 ^ 32)
    (hpos : 0 ≤ asInt32 data.length) : appended data = data := by
  exact appended_eq_self ((asInt32_nonneg_iff hlen).1 hpos)

theorem appendAll_ok {w w' : FileWriter} {data : Bytes} (hlen : data.length < 2 ^ 32)
    (hrun : SSTableBuilder.appendAll w data = .ok w') : w'.stream = w.stream ++ data := by
  rcases appendAll_spec hrun with ⟨hpos, hstream⟩
  rw [hstream, appended_of_lt hlen hpos]

theorem appendAll_progress (w : FileWriter) {data : Bytes} (hlen : data.length < 2 ^ 31) :
    ∃ w', SSTableBuilder.appendAll w data = .ok w' ∧ w'.stream = w.stream ++ data := by
  rcases w.append_spec data false with ⟨w', hrun, hstream, -⟩
  refine ⟨w', ?_, hstream⟩
  rw [SSTableBuilder.appendAll, asInt32_of_lt (Int.natCast_nonneg _) (by omega)]
  exact hrun

/-- The bytes of blocks with these pairs, one block after the other. -/
def blocksBytes (blocks : List (List (Bytes × Bytes))) : Bytes :=
  blocks.flatMap fun entries => (blockOf entries).finishDataBlock.data

theorem blocksBytes_concat (blocks : List (List (Bytes × Bytes))) (pairs : List (Bytes × Bytes)) :
    blocksBytes (blocks ++ [pairs]) = blocksBytes blocks ++ (blockOf pairs).finishDataBlock.data := by
  rw [blocksBytes, List.flatMap_append, List.flatMap_singleton, ← blocksBytes]

/-- The pairs added so far are those of the blocks that `base` is followed by in
the file, and then those of the block that is being filled. -/
structure BuilderInv (base : Bytes) (entries : List (Bytes × Bytes)) (b : SSTableBuilder)
    (blocks : List (List (Bytes × Bytes))) (current : List (Bytes × Bytes)) : Prop where
  added : blocks.flatten ++ current = entries
  block : b.dataBlockBuilder = blockOf current
  small : (blockOf current).size ≤ kMaxDataBlockSize
  stream : b.fileWriter.stream = base ++ blocksBytes blocks
  specs : ∀ block ∈ blocks, block ≠ [] ∧ BlockSpec block
  spec : BlockSpec current
  preKey : entries ≠ [] → b.preKey ≠ []

namespace SSTableBuilder

theorem new_inv {fm : FloatMath} {keysNum : ℤ} {w : FileWriter} {b : SSTableBuilder}
    (hrun : new fm keysNum w = .ok b) : BuilderInv w.stream [] b [] [] := by
  rcases bind_eq_ok.1 hrun with ⟨filterBlockBuilder, -, hrun⟩
  cases hrun
  refine ⟨rfl, rfl, Nat.zero_le _, by simp [blocksBytes], by simp, ⟨rfl, rfl, rfl, le_rfl⟩, ?_⟩
  intro hne
  exact absurd rfl hne

/-- What `add` does with a pair: the block takes it in, and a block that is over
its limit by then is written and gets its index entry. -/
theorem add_cases {b b' : SSTableBuilder} {key value : Bytes} (hkey : key ≠ [])
    (hrun : b.add key value = .ok b') :
    ((b.dataBlockBuilder.add key value).size ≤ kMaxDataBlockSize ∧
      b' = { b with
        filterBlockBuilder := b.filterBlockBuilder.add key
        dataBlockBuilder := b.dataBlockBuilder.add key value
        keyCount := asInt32 (b.keyCount + 1)
        preKey := key }) ∨
    ∃ block w shortestKey, block = (b.dataBlockBuilder.add key value).finishDataBlock.data ∧
      kMaxDataBlockSize < (b.dataBlockBuilder.add key value).size ∧
      appendAll b.fileWriter block = .ok w ∧ findShortestKey b.preKey key = .ok shortestKey ∧
      b' = { SSTableBuilder.addIndex
          { b with
            filterBlockBuilder := b.filterBlockBuilder.add key
            dataBlockBuilder := DataBlockBuilder.empty
            keyCount := asInt32 (b.keyCount + 1)
            fileWriter := w
            filterBlockOffset :=
              { b.filterBlockOffset with
                offset := asInt32 (b.filterBlockOffset.offset + asInt32 block.length) } }
          shortestKey
          ⟨asInt32 block.length, asInt32 (b.filterBlockOffset.offset + asInt32 block.length)⟩ with
        preKey := key } := by
  rw [add, if_neg hkey] at hrun
  rcases bind_eq_ok.1 hrun with ⟨bCut, hcut, hrun⟩
  cases hrun
  rw [cutIfOver] at hcut
  split at hcut
  · -- over the limit
    rename_i hover
    rcases bind_eq_ok.1 hcut with ⟨w, happend, hcut⟩
    rcases bind_eq_ok.1 hcut with ⟨shortestKey, hshortest, hcut⟩
    cases hcut
    exact Or.inr ⟨_, w, shortestKey, rfl, hover, happend, hshortest, rfl⟩
  · -- below it, nothing is written
    rename_i hbelow
    cases hcut
    exact Or.inl ⟨not_lt.1 hbelow, rfl⟩

/-- Pairs that a block takes in before it is tested for its size. -/
theorem blockSpec_concat {current : List (Bytes × Bytes)} {entry : Bytes × Bytes}
    (hspec : BlockSpec current) (hsmall : (blockOf current).size ≤ kMaxDataBlockSize)
    (hcurrent : ∀ e ∈ current, e.1 ≠ []) (hkey : entry.1 ≠ []) : BlockSpec (current ++ [entry]) := by
  have hfew := length_le_of_size hspec hsmall
  refine blockOf_spec ?_ (by simp only [List.length_append, List.length_singleton]; omega)
  intro e he
  rcases List.mem_append.1 he with he | he
  · exact hcurrent e he
  · rwa [List.mem_singleton.1 he]

/-- A block within its limit is small with its restart points, too. -/
theorem open_block_length_lt {current : List (Bytes × Bytes)} (hspec : BlockSpec current)
    (hsmall : (blockOf current).size ≤ kMaxDataBlockSize) :
    (blockOf current).finishDataBlock.data.length < 2 ^ 31 := by
  have hfew := length_le_of_size hspec hsmall
  have htrailer := trailer_length hspec
  rw [DataBlockBuilder.size, kMaxDataBlockSize] at hsmall
  rw [DataBlockBuilder.finishDataBlock, List.length_append]
  omega

/-- A block that is cut off is at most 4096 bytes, one record and the restart
points. -/
theorem block_length_lt {current : List (Bytes × Bytes)} {entry : Bytes × Bytes}
    (hspec : BlockSpec current) (hsmall : (blockOf current).size ≤ kMaxDataBlockSize)
    (hspec' : BlockSpec (current ++ [entry])) (hlen : entry.1.length + entry.2.length < 2 ^ 31) :
    (blockOf (current ++ [entry])).finishDataBlock.data.length < 2 ^ 32 := by
  have hfew := length_le_of_size hspec hsmall
  have htrailer := trailer_length hspec'
  have hrecord := (writeRecord_length
    (nextAll RecordState.next RecordState.start current) entry).2
  rw [DataBlockBuilder.size, hspec.data, kMaxDataBlockSize] at hsmall
  simp only [DataBlockBuilder.finishDataBlock, List.length_append, hspec'.data, writeRecords,
    encodeAll_concat] at htrailer ⊢
  rw [← writeRecords]
  simp only [List.length_singleton] at htrailer
  omega

/-- Adding a pair extends the current block, and may cut it off. -/
theorem add_inv {base : Bytes} {entries : List (Bytes × Bytes)} {b b' : SSTableBuilder}
    {blocks : List (List (Bytes × Bytes))} {current : List (Bytes × Bytes)}
    (h : BuilderInv base entries b blocks current) {entry : Bytes × Bytes} (hkey : entry.1 ≠ [])
    (hlen : entry.1.length + entry.2.length < 2 ^ 31) (hcurrent : ∀ e ∈ current, e.1 ≠ [])
    (hrun : b.add entry.1 entry.2 = .ok b') :
    ∃ blocks' current', BuilderInv base (entries ++ [entry]) b' blocks' current' := by
  have hspec := blockSpec_concat h.spec h.small hcurrent hkey
  have hblock : b.dataBlockBuilder.add entry.1 entry.2 = blockOf (current ++ [entry]) := by
    rw [blockOf_concat, h.block]
  rcases add_cases hkey hrun with ⟨hbelow, rfl⟩ | ⟨block, w, key, rfl, -, happend, -, rfl⟩
  · -- the block stays open
    rw [hblock] at hbelow
    refine ⟨blocks, current ++ [entry], ?_, hblock, hbelow, h.stream, h.specs, hspec,
      fun _ => hkey⟩
    rw [← h.added, List.append_assoc]
  · -- the block is written
    rw [hblock] at happend
    refine ⟨blocks ++ [current ++ [entry]], [], ?_, rfl, Nat.zero_le _, ?_, ?_,
      ⟨rfl, rfl, rfl, le_rfl⟩, fun _ => hkey⟩
    · rw [← h.added]
      simp
    · rw [addIndex, appendAll_ok (block_length_lt h.spec h.small hspec hlen) happend, h.stream,
        blocksBytes_concat, List.append_assoc]
    · intro block hblock'
      rcases List.mem_append.1 hblock' with hblock' | hblock'
      · exact h.specs block hblock'
      · rw [List.mem_singleton.1 hblock']
        exact ⟨by simp, hspec⟩

/-- A run of additions keeps the invariant. -/
theorem addAll_inv {base : Bytes} {b b' : SSTableBuilder} (h : BuilderInv base [] b [] [])
    {entries : List (Bytes × Bytes)} (hkeys : ∀ entry ∈ entries, entry.1 ≠ [])
    (hlen : ∀ entry ∈ entries, entry.1.length + entry.2.length < 2 ^ 31)
    (hrun : b.addAll entries = .ok b') :
    ∃ blocks current, BuilderInv base entries b' blocks current := by
  refine run_history_invariant (fun entries b => (∀ entry ∈ entries, entry.1 ≠ []) →
    (∀ entry ∈ entries, entry.1.length + entry.2.length < 2 ^ 31) →
      ∃ blocks current, BuilderInv base entries b blocks current) ?_ ?_ hrun hkeys hlen
  · intro _ _
    exact ⟨[], [], h⟩
  · intro entries b entry b' hinv hadd hkeys' hlen'
    rcases hinv (fun e he => hkeys' e (by simp [he])) (fun e he => hlen' e (by simp [he])) with
      ⟨blocks, current, hb⟩
    refine add_inv hb (hkeys' entry (by simp)) (hlen' entry (by simp)) ?_ hadd
    intro e he
    refine hkeys' e ?_
    rw [← hb.added]
    simp [he]

/-- The last block is written by `finish_sst`, unless there is nothing in it. -/
theorem finishBlocks_inv {base : Bytes} {entries : List (Bytes × Bytes)} {b : SSTableBuilder}
    {blocks : List (List (Bytes × Bytes))} {current : List (Bytes × Bytes)}
    (h : BuilderInv base entries b blocks current) :
    ∃ b' blocks', b.finishBlocks = .ok b' ∧ b'.fileWriter.stream = base ++ blocksBytes blocks' ∧
      blocks'.flatten = entries ∧ ∀ block ∈ blocks', block ≠ [] ∧ BlockSpec block := by
  by_cases hcurrent : current = []
  · -- the last addition has cut its block off
    subst hcurrent
    refine ⟨b, blocks, ?_, h.stream, by rw [← h.added, List.append_nil], h.specs⟩
    rw [finishBlocks, h.block]
    rfl
  · -- a block with a pair in it is not empty, so it is written
    have hpos : b.dataBlockBuilder.size > 0 := by
      have hrecords := writeRecords_length current
      have hlength := List.length_pos_of_ne_nil hcurrent
      rw [h.block, DataBlockBuilder.size, h.spec.data]
      omega
    rcases appendAll_progress b.fileWriter (open_block_length_lt h.spec h.small) with
      ⟨w, happend, hstream⟩
    have hpreKey : b.preKey ≠ [] := by
      refine h.preKey ?_
      rw [← h.added]
      simp [hcurrent]
    have hbump : ∃ key, bumpLast b.preKey = .ok key := by
      rw [bumpLast, List.getLast?_eq_some_getLast hpreKey]
      exact ⟨_, rfl⟩
    rcases hbump with ⟨key, hbump⟩
    rw [finishBlocks, if_pos hpos]
    simp only [h.block, happend, hbump, ok_bind, pure_eq_ok]
    refine ⟨_, blocks ++ [current], rfl, ?_, by rw [← h.added]; simp, ?_⟩
    · rw [addIndex]
      simp only [hstream, h.stream, blocksBytes_concat, List.append_assoc]
    · intro block hblock
      rcases List.mem_append.1 hblock with hblock | hblock
      · exact h.specs block hblock
      · rw [List.mem_singleton.1 hblock]
        exact ⟨hcurrent, h.spec⟩

/-- The stages of `build`. -/
theorem build_cases {fm : FloatMath} {keysNum : ℤ} {entries : List (Bytes × Bytes)} {file : Bytes}
    (hrun : build fm keysNum entries = .ok file) :
    ∃ b₀ b b', new fm keysNum (FileWriter.openFile []) = .ok b₀ ∧ b₀.addAll entries = .ok b ∧
      b.finishSst fm = .ok b' ∧ b'.fileWriter.file = file := by
  rcases bind_eq_ok.1 hrun with ⟨b₀, hnew, hrun⟩
  rcases bind_eq_ok.1 hrun with ⟨b, hadd, hrun⟩
  rcases bind_eq_ok.1 hrun with ⟨b', hfinish, hrun⟩
  exact ⟨b₀, b, b', hnew, hadd, hfinish, Except.ok.inj hrun⟩

/-- What `finish_sst` does behind the data blocks: the filter is finished twice,
its size is that of the first time, and filter, index and footer are written. -/
theorem finishMeta_cases {fm : FloatMath} {b b' : SSTableBuilder}
    (hrun : b.finishMeta fm = .ok b') :
    ∃ filter₁ filter₂ metaBlock indexBlock w₁ w₂ w₃,
      b.filterBlockBuilder.finishFilterBlock = .ok filter₁ ∧
      filter₁.finishFilterBlock = .ok filter₂ ∧
      metaBlock = ⟨asInt32 filter₁.data.length, b.filterBlockOffset.offset⟩ ∧
      indexBlock = ⟨asInt32 b.indexData.length, asInt32 (metaBlock.offset + metaBlock.size)⟩ ∧
      appendAll b.fileWriter filter₂.data = .ok w₁ ∧ appendAll w₁ b.indexData = .ok w₂ ∧
      appendAll w₂ (b.footerBuilder.add metaBlock indexBlock).data = .ok w₃ ∧
      b'.fileWriter.file = w₃.stream := by
  rcases bind_eq_ok.1 hrun with ⟨filter₁, hfilter₁, hrun⟩
  rcases bind_eq_ok.1 hrun with ⟨filter₂, hfilter₂, hrun⟩
  rcases bind_eq_ok.1 hrun with ⟨w₁, hw₁, hrun⟩
  rcases bind_eq_ok.1 hrun with ⟨w₂, hw₂, hrun⟩
  rcases bind_eq_ok.1 hrun with ⟨_, -, hrun⟩
  rcases bind_eq_ok.1 hrun with ⟨w₃, hw₃, hrun⟩
  rcases bind_eq_ok.1 hrun with ⟨filter₃, -, hrun⟩
  cases hrun
  refine ⟨filter₁, filter₂, _, _, w₁, w₂, w₃, hfilter₁, hfilter₂, rfl, rfl, hw₁, hw₂, hw₃, ?_⟩
  calc w₃.flush.close.file = w₃.flush.stream := w₃.flush.file_sync
    _ = w₃.stream := w₃.stream_sync

/-- Filter, index and footer go behind what is there. -/
theorem finishMeta_stream {fm : FloatMath} {b b' : SSTableBuilder}
    (hrun : b.finishMeta fm = .ok b') : ∃ rest, b'.fileWriter.file = b.fileWriter.stream ++ rest := by
  rcases finishMeta_cases hrun with
    ⟨_, _, _, _, w₁, w₂, w₃, -, -, -, -, hfilter, hindex, hfooter, hfile⟩
  rw [hfile, FileWriter.append_ok hfooter, FileWriter.append_ok hindex,
    FileWriter.append_ok hfilter, List.append_assoc, List.append_assoc]
  exact ⟨_, rfl⟩

end SSTableBuilder

/-! ## Reading the blocks back -/

/-- A stream is a sequence of data blocks, each what `finish_data_block` makes of
some pairs, and the record sections of the blocks, decoded from left to right,
are the entries. -/
structure BlocksReadBack (stream : Bytes) (entries : List (Bytes × Bytes))
    (blocks : List DataBlockBuilder) : Prop where
  stream : stream = blocks.flatMap fun block => block.data ++ block.trailer
  built : ∀ block ∈ blocks, ∃ pairs, pairs ≠ [] ∧ block = blockOf pairs
  decoded : ∃ groups, blocks.mapM (fun block => decodeRecords block.data) = some groups ∧
    groups.flatten = entries

theorem blocksReadBack {blocks : List (List (Bytes × Bytes))}
    (hspecs : ∀ block ∈ blocks, block ≠ [] ∧ BlockSpec block)
    (hfits : ∀ entry ∈ blocks.flatten, FitsRecord entry) :
    BlocksReadBack (blocksBytes blocks) blocks.flatten (blocks.map blockOf) where
  stream := by
    rw [blocksBytes, List.flatMap_map]
    rfl
  built := by
    intro block hblock
    rcases List.mem_map.1 hblock with ⟨pairs, hpairs, rfl⟩
    exact ⟨pairs, (hspecs pairs hpairs).1, rfl⟩
  decoded := by
    refine ⟨blocks, ?_, rfl⟩
    induction blocks with
    | nil => rfl
    | cons block blocks ih =>
        have hblock : decodeRecords (blockOf block).data = some block := by
          rw [(hspecs block (by simp)).2.data]
          exact decodeRecords_writeRecords fun entry he => hfits entry (by simp [he])
        rw [List.map_cons, List.mapM_cons, hblock,
          ih (fun b hb => hspecs b (by simp [hb]))
            (fun entry he => hfits entry (by rw [List.flatten_cons]; simp [he]))]
        rfl

/-- No loss and no duplication across data blocks: whatever the additions left
to `finish_sst`, the bytes in front of the filter are blocks that decode to
exactly the pairs added. -/
theorem blocks_decode_to_entries (fm : FloatMath) (keysNum : ℤ) (w : FileWriter)
    {entries : List (Bytes × Bytes)} (hkeys : ∀ entry ∈ entries, entry.1 ≠ [])
    (htotal : (entries.map fun entry => entry.1.length + entry.2.length).sum < 2 ^ 31)
    {b₀ b : SSTableBuilder} (hnew : SSTableBuilder.new fm keysNum w = .ok b₀)
    (hadd : b₀.addAll entries = .ok b) :
    ∃ b' stream blocks, b.finishBlocks = .ok b' ∧ b'.fileWriter.stream = w.stream ++ stream ∧
      BlocksReadBack stream entries blocks ∧
      ∀ b'', b.finishSst fm = .ok b'' →
        ∃ rest, b''.fileWriter.file = w.stream ++ stream ++ rest := by
  have hlen : ∀ entry ∈ entries, entry.1.length + entry.2.length < 2 ^ 31 := by
    intro entry hentry
    exact lt_of_le_of_lt (List.single_le_sum (by simp) _ (List.mem_map.2 ⟨entry, hentry, rfl⟩)) htotal
  rcases SSTableBuilder.addAll_inv (SSTableBuilder.new_inv hnew) hkeys hlen hadd with
    ⟨blocks, current, hb⟩
  rcases SSTableBuilder.finishBlocks_inv hb with ⟨b', blocks', hfinish, hstream, rfl, hspecs⟩
  refine ⟨b', blocksBytes blocks', blocks'.map blockOf, hfinish, hstream,
    blocksReadBack hspecs ?_, ?_⟩
  · intro entry hentry
    have hsmall := hlen entry hentry
    constructor
    · omega
    · omega
  · intro b'' hsst
    rcases bind_eq_ok.1 hsst with ⟨b₁, hfinish₁, hmeta⟩
    obtain rfl : b' = b₁ := Except.ok.inj (hfinish.symm.trans hfinish₁)
    rcases SSTableBuilder.finishMeta_stream hmeta with ⟨rest, hrest⟩
    exact ⟨rest, by rw [hrest, hstream]⟩

/-- A small value and then one that ends its block. -/
def cutEntries : List (Bytes × Bytes) :=
  [(ascii "a", []), (ascii "b", List.replicate 4100 0)]

theorem cutEntries_keys : ∀ entry ∈ cutEntries, entry.1 ≠ [] := by
  decide +kernel

theorem cutEntries_build :
    ∃ file, SSTableBuilder.build decimalMath 2 cutEntries = .ok file ∧ file.length < 2 ^ 31 := by
  have hrun : (SSTableBuilder.build decimalMath 2 cutEntries).toOption.any
      fun file => file.length < 2 ^ 31 := by
    decide +kernel
  simpa only [decide_eq_true_eq] using exists_ok_of_any hrun

/-- One more pair, which is in a block of its own. -/
def splitEntries : List (Bytes × Bytes) := cutEntries ++ [(ascii "c", ascii "z")]

theorem splitEntries_keys : ∀ entry ∈ splitEntries, entry.1 ≠ [] := by
  decide +kernel

theorem splitEntries_sorted : splitEntries.Pairwise fun a b => a.1 < b.1 := by
  decide +kernel

theorem splitEntries_build :
    ∃ file, SSTableBuilder.build decimalMath 3 splitEntries = .ok file ∧ file.length < 2 ^ 31 := by
  have hrun : (SSTableBuilder.build decimalMath 3 splitEntries).toOption.any
      fun file => file.length < 2 ^ 31 := by
    decide +kernel
  simpa only [decide_eq_true_eq] using exists_ok_of_any hrun

/-- Three pairs in two blocks. -/
theorem blocks_decode_to_entries_split :
    ∃ b₀ b, SSTableBuilder.new decimalMath 3 (FileWriter.openFile []) = .ok b₀ ∧
      b₀.addAll splitEntries = .ok b ∧
      ∃ b' stream blocks, b.finishBlocks = .ok b' ∧
        b'.fileWriter.stream = (FileWriter.openFile []).stream ++ stream ∧
        BlocksReadBack stream splitEntries blocks ∧
        ∀ b'', b.finishSst decimalMath = .ok b'' →
          ∃ rest, b''.fileWriter.file = (FileWriter.openFile []).stream ++ stream ++ rest := by
  rcases splitEntries_build with ⟨file, hbuild, -⟩
  rcases SSTableBuilder.build_cases hbuild with ⟨b₀, b, b', hnew, hadd, -, -⟩
  exact ⟨b₀, b, hnew, hadd, blocks_decode_to_entries decimalMath 3 (FileWriter.openFile [])
    splitEntries_keys (by decide +kernel) hnew hadd⟩

end Smallkv
