import Smallkv.Lib.Extents
import Smallkv.Table.Plan

/-!
# Table.IndexOffsets — where the index says the blocks are

An index entry is to have the range of its block, the ranges being those of
consecutive parts of the file from its start to the filter. `finish_sst` writes
the entry of the last block before it moves the end of the blocks on, `add` the
entries of the others behind that, so theirs start where their block ends. The
index is right exactly for a table that is a single block.
-/

namespace Smallkv

open Fallible Extents

/-! ## What the index is to say -/

/-- The blocks as `finish_data_block` leaves them. -/
def Plan.blockBytes (p : Plan) : List Bytes :=
  p.blocks.map fun pairs => (blockOf pairs).finishDataBlock.data

/-- Every index entry has position and size of its data block in the file, so the
blocks are one behind the other from the start of the file to the filter. -/
structure IndexDelimits (file : Bytes) (p : Plan) (metaBlock : OffsetInfo) : Prop where
  ranges : p.index.map IndexBlock.offsetInfo = (extents 0 p.blockBytes).map OffsetInfo.ofRange
  there : ∀ (i : ℕ) block e, p.blockBytes[i]? = some block → p.index[i]? = some e →
    slice file e.offsetInfo.offset e.offsetInfo.size = .ok block
  filterBehind : metaBlock.offset = p.blockBytes.flatten.length

/-! ## Adding to a block -/

/-- A record makes its block longer. -/
theorem size_le_add (b : DataBlockBuilder) (key value : Bytes) : b.size ≤ (b.add key value).size := by
  unfold DataBlockBuilder.add
  split
  · exact le_rfl
  · simp only [DataBlockBuilder.size, List.length_append]
    omega

theorem size_mono {pairs entries : List (Bytes × Bytes)} (hpre : pairs <+: entries) :
    (blockOf pairs).size ≤ (blockOf entries).size := by
  rcases hpre with ⟨rest, rfl⟩
  induction rest using List.reverseRecOn with
  | nil => rw [List.append_nil]
  | append_singleton rest entry ih =>
      rw [← List.append_assoc, blockOf_concat]
      exact ih.trans (size_le_add _ _ _)

/-! ## The first entry -/

/-- As long as no block is put away there is no entry. -/
structure OneBlock (entries : List (Bytes × Bytes)) (p : Plan) : Prop where
  blocks : p.blocks = []
  index : p.index = []
  offset : p.offset = 0
  current : p.current = entries
  spec : BlockSpec entries
  small : (blockOf entries).size ≤ kMaxDataBlockSize

/-- The first block that is put away by `add` gets an entry that starts at its
end. -/
structure FirstCut (entries : List (Bytes × Bytes)) (p : Plan) : Prop where
  cut : ∃ pairs blocks e index, p.blocks = pairs :: blocks ∧ p.index = e :: index ∧
    pairs <+: entries ∧ kMaxDataBlockSize < (blockOf pairs).size ∧
    e.offsetInfo = ⟨Plan.blockSize pairs, Plan.blockSize pairs⟩

theorem asInt32_blockSize (pairs : List (Bytes × Bytes)) :
    asInt32 (0 + Plan.blockSize pairs) = Plan.blockSize pairs := by
  rw [zero_add, Plan.blockSize, asInt32, asInt32, Int.bmod_bmod]

/-- What comes behind it leaves it as it is. -/
theorem FirstCut.mono {entries entries' : List (Bytes × Bytes)} {p p' : Plan}
    (h : FirstCut entries p) (hpre : entries <+: entries') (hblocks : p.blocks <+: p'.blocks)
    (hindex : p.index <+: p'.index) : FirstCut entries' p' := by
  rcases h.cut with ⟨pairs, blocks, e, index, hp, hi, hpairs, hover, he⟩
  rcases hblocks with ⟨blocks', hp'⟩
  rcases hindex with ⟨index', hi'⟩
  rw [hp, List.cons_append] at hp'
  rw [hi, List.cons_append] at hi'
  exact ⟨⟨pairs, _, e, _, hp'.symm, hi'.symm, hpairs.trans hpre, hover, he⟩⟩

namespace Plan

theorem add_first {entries : List (Bytes × Bytes)} {p p' : Plan} {entry : Bytes × Bytes}
    (h : OneBlock entries p ∨ FirstCut entries p) (hkeys : ∀ e ∈ entries ++ [entry], e.1 ≠ [])
    (hrun : p.add entry = .ok p') :
    OneBlock (entries ++ [entry]) p' ∨ FirstCut (entries ++ [entry]) p' := by
  rcases h with h | h
  · have hspec : BlockSpec (entries ++ [entry]) :=
      SSTableBuilder.blockSpec_concat h.spec h.small (fun e he => hkeys e (by simp [he]))
        (hkeys entry (by simp))
    rcases add_cases hrun with ⟨hbelow, rfl⟩ | ⟨shortestKey, hover, -, rfl⟩
    · rw [h.current] at hbelow
      exact Or.inl ⟨h.blocks, h.index, h.offset, by rw [h.current], hspec, hbelow⟩
    · -- the first block is put away
      rw [h.current] at hover
      right
      constructor
      simp only [h.blocks, h.index, h.offset, h.current, List.nil_append, asInt32_blockSize]
      exact ⟨_, _, _, _, rfl, rfl, List.prefix_refl _, hover, rfl⟩
  · right
    rcases add_cases hrun with ⟨-, rfl⟩ | ⟨shortestKey, -, -, rfl⟩
    · exact h.mono (List.prefix_append _ _) (List.prefix_refl _) (List.prefix_refl _)
    · exact h.mono (List.prefix_append _ _) (List.prefix_append _ _) (List.prefix_append _ _)

theorem run_first {entries : List (Bytes × Bytes)} {p : Plan}
    (hkeys : ∀ entry ∈ entries, entry.1 ≠ []) (hrun : run add start entries = .ok p) :
    OneBlock entries p ∨ FirstCut entries p := by
  refine run_history_invariant (fun entries p => (∀ entry ∈ entries, entry.1 ≠ []) →
    OneBlock entries p ∨ FirstCut entries p) ?_ ?_ hrun hkeys
  · intro _
    exact Or.inl ⟨rfl, rfl, rfl, rfl, ⟨rfl, rfl, rfl, le_rfl⟩, Nat.zero_le _⟩
  · intro entries p entry p' hinv hadd hkeys'
    exact add_first (hinv fun e he => hkeys' e (by simp [he])) hkeys' hadd

/-- In the end there is a first entry that starts at the end of its block, or one
block at the start of the file, or nothing. -/
theorem ofEntries_first {entries : List (Bytes × Bytes)} {p : Plan}
    (hkeys : ∀ entry ∈ entries, entry.1 ≠ []) (hplan : ofEntries entries = .ok p) :
    FirstCut entries p ∨ (blockOf entries).size ≤ kMaxDataBlockSize ∧
      ((p.blocks = [] ∧ p.index = [] ∧ p.offset = 0) ∨
        ∃ key, p.blocks = [entries] ∧ p.index = [⟨key, ⟨blockSize entries, 0⟩⟩] ∧
          p.offset = blockSize entries ∧
          (blockOf entries).finishDataBlock.data.length < 2 ^ 31) := by
  rcases bind_eq_ok.1 hplan with ⟨p₀, hrun, hfinish⟩
  rcases run_first hkeys hrun with h | h
  · right
    refine ⟨h.small, ?_⟩
    rcases finish_cases hfinish with ⟨-, rfl⟩ | ⟨key, -, -, rfl⟩
    · exact Or.inl ⟨h.blocks, h.index, h.offset⟩
    · right
      refine ⟨key, ?_⟩
      simp only [h.blocks, h.index, h.offset, h.current, List.nil_append, asInt32_blockSize]
      exact ⟨trivial, trivial, trivial, SSTableBuilder.open_block_length_lt h.spec h.small⟩
  · left
    rcases finish_cases hfinish with ⟨-, rfl⟩ | ⟨key, -, -, rfl⟩
    · exact h
    · exact h.mono (List.prefix_refl _) (List.prefix_append _ _) (List.prefix_append _ _)

end Plan

/-- An entry that starts at the end of its block is wrong: the block is not empty. -/
theorem FirstCut.not_delimits {entries : List (Bytes × Bytes)} {p : Plan} (h : FirstCut entries p)
    (file : Bytes) (metaBlock : OffsetInfo) : ¬ IndexDelimits file p metaBlock := by
  intro hdelimits
  rcases h.cut with ⟨pairs, blocks, e, index, hblocks, hindex, -, hover, he⟩
  have hranges := hdelimits.ranges
  rw [Plan.blockBytes, hblocks, hindex] at hranges
  simp only [List.map_cons, extents_cons, List.cons.injEq, he, OffsetInfo.ofRange,
    OffsetInfo.mk.injEq] at hranges
  rcases hranges with ⟨⟨hsize, hoffset⟩, -⟩
  have hlen := size_le_finished pairs
  omega

theorem indexDelimits_nothing {file : Bytes} {p : Plan} {metaBlock : OffsetInfo}
    (hwritten : Written file p metaBlock) (hblocks : p.blocks = []) (hindex : p.index = [])
    (hoffset : p.offset = 0) : IndexDelimits file p metaBlock := by
  constructor
  · rw [Plan.blockBytes, hblocks, hindex]
    rfl
  · intro i block e _ he
    simp [hindex] at he
  · rw [hwritten.offset, hoffset, Plan.blockBytes, hblocks]
    rfl

/-- The entry of the block that `finish_sst` puts away at the start of a file is
right. -/
theorem indexDelimits_single {file : Bytes} {p : Plan} {metaBlock : OffsetInfo}
    (hwritten : Written file p metaBlock) {pairs : List (Bytes × Bytes)} {key : Bytes}
    (hblocks : p.blocks = [pairs]) (hindex : p.index = [⟨key, ⟨Plan.blockSize pairs, 0⟩⟩])
    (hoffset : p.offset = Plan.blockSize pairs)
    (hlen : (blockOf pairs).finishDataBlock.data.length < 2 ^ 31) :
    IndexDelimits file p metaBlock := by
  have hsize : Plan.blockSize pairs = (blockOf pairs).finishDataBlock.data.length :=
    asInt32_of_lt (Int.natCast_nonneg _) (by omega)
  have hbytes : p.blockBytes = [(blockOf pairs).finishDataBlock.data] := by
    rw [Plan.blockBytes, hblocks]
    rfl
  rcases hwritten.parts with ⟨filter, footer, -, hfile⟩
  have hfront : file = [] ++ (blockOf pairs).finishDataBlock.data ++
      (filter ++ appended (indexBytes p.index) ++ footer) := by
    rw [hfile, hblocks, appendedBlocks, List.flatMap_singleton, appended_eq_self hlen]
    simp only [List.nil_append, List.append_assoc]
  constructor
  · rw [hbytes, hindex, hsize]
    rfl
  · intro i block e hblock he
    rw [hbytes] at hblock
    rw [hindex] at he
    have hi : i = 0 := by simpa using (List.getElem?_eq_some_iff.1 he).1
    subst hi
    simp only [List.getElem?_cons_zero, Option.some.injEq] at hblock he
    subst hblock he
    rw [hfront, hsize]
    exact slice_append rfl rfl
  · rw [hwritten.offset, hoffset, hsize, hbytes]
    simp

/-- The index entries of a table delimit its data blocks exactly when all its
pairs fit into one block. The entry of any block that `add` puts away starts
where the block ends. -/
theorem indexDelimits_iff (fm : FloatMath) {keysNum : ℤ} {entries : List (Bytes × Bytes)}
    (hkeys : ∀ entry ∈ entries, entry.1 ≠ []) {b₀ b b' : SSTableBuilder}
    (hnew : SSTableBuilder.new fm keysNum (FileWriter.openFile []) = .ok b₀)
    (hadd : b₀.addAll entries = .ok b) (hfinish : b.finishSst fm = .ok b') :
    ∃ p metaBlock, Plan.ofEntries entries = .ok p ∧ Written b'.fileWriter.file p metaBlock ∧
      (IndexDelimits b'.fileWriter.file p metaBlock ↔
        (blockOf entries).size ≤ kMaxDataBlockSize) := by
  rcases finishSst_written hkeys hnew hadd hfinish with ⟨p, metaBlock, hplan, hwritten⟩
  refine ⟨p, metaBlock, hplan, hwritten, ?_⟩
  rcases Plan.ofEntries_first hkeys hplan with hcut | ⟨hsmall, hone⟩
  · -- a block is put away by `add`
    refine iff_of_false (hcut.not_delimits _ _) ?_
    rcases hcut.cut with ⟨pairs, _, _, _, -, -, hpre, hover, -⟩
    have hmono := size_mono hpre
    omega
  · refine iff_of_true ?_ hsmall
    rcases hone with ⟨hblocks, hindex, hoffset⟩ | ⟨key, hblocks, hindex, hoffset, hlen⟩
    · exact indexDelimits_nothing hwritten hblocks hindex hoffset
    · exact indexDelimits_single hwritten hblocks hindex hoffset hlen

/-- Three pairs in two blocks. -/
theorem indexDelimits_iff_split :
    ∃ b₀ b b', SSTableBuilder.new decimalMath 3 (FileWriter.openFile []) = .ok b₀ ∧
      b₀.addAll splitEntries = .ok b ∧ b.finishSst decimalMath = .ok b' ∧
      ∃ p metaBlock, Plan.ofEntries splitEntries = .ok p ∧
        Written b'.fileWriter.file p metaBlock ∧
        (IndexDelimits b'.fileWriter.file p metaBlock ↔
          (blockOf splitEntries).size ≤ kMaxDataBlockSize) := by
  rcases splitEntries_build with ⟨file, hbuild, -⟩
  rcases SSTableBuilder.build_cases hbuild with ⟨b₀, b, b', hnew, hadd, hfinish, -⟩
  exact ⟨b₀, b, b', hnew, hadd, hfinish,
    indexDelimits_iff decimalMath splitEntries_keys hnew hadd hfinish⟩

/-- A table whose only block is put away by `add`: its entry starts where the block
ends. -/
theorem cutEntries_not_delimited :
    ∃ b₀ b b' p metaBlock, SSTableBuilder.new decimalMath 2 (FileWriter.openFile []) = .ok b₀ ∧
      b₀.addAll cutEntries = .ok b ∧ b.finishSst decimalMath = .ok b' ∧
      Plan.ofEntries cutEntries = .ok p ∧ Written b'.fileWriter.file p metaBlock ∧
      ¬ IndexDelimits b'.fileWriter.file p metaBlock := by
  have hover : ¬ (blockOf cutEntries).size ≤ kMaxDataBlockSize := by
    decide +kernel
  rcases cutEntries_build with ⟨file, hbuild, -⟩
  rcases SSTableBuilder.build_cases hbuild with ⟨b₀, b, b', hnew, hadd, hfinish, -⟩
  rcases finishSst_written cutEntries_keys hnew hadd hfinish with ⟨p, metaBlock, hplan, hwritten⟩
  have hcut := (Plan.ofEntries_first cutEntries_keys hplan).resolve_right fun h => hover h.1
  exact ⟨b₀, b, b', p, metaBlock, hnew, hadd, hfinish, hplan, hwritten, hcut.not_delimits _ _⟩

end Smallkv
