import Smallkv.Table.Layout

/-!
# Table.Plan — which blocks a table has, and which index

A builder decides where its blocks end and what their index entries are by the
pairs alone. `Plan` makes the same decisions without a writer, a filter and a
block of bytes, and the builder is shown to follow it (`follows_add`,
`finishBlocks_follows`), so what is true of the index of every plan is true of
the index in every file (`finishSst_written`).
-/

namespace Smallkv

open Fallible

/-! ## The plan -/

/-- The blocks that are put away with their index entries, the pairs that came in
since, the last key, and the end of the blocks as an `int32_t`. -/
structure Plan where
  blocks : List (List (Bytes × Bytes))
  index : List IndexBlock
  current : List (Bytes × Bytes)
  preKey : Bytes
  offset : ℤ

namespace Plan

def start : Plan := ⟨[], [], [], [], 0⟩

/-- The size that an index entry has for a block with these pairs. -/
def blockSize (pairs : List (Bytes × Bytes)) : ℤ :=
  asInt32 (blockOf pairs).finishDataBlock.data.length

/-- A block over the limit, `key` being the last one in it. -/
def cut (p : Plan) (pairs : List (Bytes × Bytes)) (key : Bytes) : Exec Plan := do
  let offset := asInt32 (p.offset + blockSize pairs)
  let shortestKey ← SSTableBuilder.findShortestKey p.preKey key
  pure
    { blocks := p.blocks ++ [pairs]
      -- the end of the block, not its start
      index := p.index ++ [⟨shortestKey, ⟨blockSize pairs, offset⟩⟩]
      current := []
      preKey := key
      offset := offset }

def add (p : Plan) (entry : Bytes × Bytes) : Exec Plan :=
  if (blockOf (p.current ++ [entry])).size > kMaxDataBlockSize then
    p.cut (p.current ++ [entry]) entry.1
  else pure { p with current := p.current ++ [entry], preKey := entry.1 }

/-- The last block. -/
def finish (p : Plan) : Exec Plan :=
  if p.current = [] then pure p
  else do
    let preKey ← SSTableBuilder.bumpLast p.preKey
    pure
      { blocks := p.blocks ++ [p.current]
        index := p.index ++ [⟨preKey, ⟨blockSize p.current, p.offset⟩⟩]
        current := []
        preKey := preKey
        offset := asInt32 (p.offset + blockSize p.current) }

/-- The plan of a table with these pairs. -/
def ofEntries (entries : List (Bytes × Bytes)) : Exec Plan := do
  let p ← run add start entries
  p.finish

/-- What a plan does with a pair. -/
theorem add_cases {p p' : Plan} {entry : Bytes × Bytes} (hrun : p.add entry = .ok p') :
    ((blockOf (p.current ++ [entry])).size ≤ kMaxDataBlockSize ∧
      p' = { p with current := p.current ++ [entry], preKey := entry.1 }) ∨
    ∃ shortestKey, kMaxDataBlockSize < (blockOf (p.current ++ [entry])).size ∧
      SSTableBuilder.findShortestKey p.preKey entry.1 = .ok shortestKey ∧
      p' =
        { blocks := p.blocks ++ [p.current ++ [entry]]
          index := p.index ++ [⟨shortestKey, ⟨blockSize (p.current ++ [entry]),
            asInt32 (p.offset + blockSize (p.current ++ [entry]))⟩⟩]
          current := []
          preKey := entry.1
          offset := asInt32 (p.offset + blockSize (p.current ++ [entry])) } := by
  rw [add] at hrun
  split at hrun
  · rename_i hover
    rcases bind_eq_ok.1 hrun with ⟨shortestKey, hshortest, hrun⟩
    cases hrun
    exact Or.inr ⟨shortestKey, hover, hshortest, rfl⟩
  · rename_i hbelow
    cases hrun
    exact Or.inl ⟨not_lt.1 hbelow, rfl⟩

/-- What it does with the last block. -/
theorem finish_cases {p p' : Plan} (hrun : p.finish = .ok p') :
    (p.current = [] ∧ p' = p) ∨
    ∃ key, p.current ≠ [] ∧ SSTableBuilder.bumpLast p.preKey = .ok key ∧
      p' =
        { blocks := p.blocks ++ [p.current]
          index := p.index ++ [⟨key, ⟨blockSize p.current, p.offset⟩⟩]
          current := []
          preKey := key
          offset := asInt32 (p.offset + blockSize p.current) } := by
  rw [finish] at hrun
  split at hrun
  · rename_i hnil
    cases hrun
    exact Or.inl ⟨hnil, rfl⟩
  · rename_i hne
    rcases bind_eq_ok.1 hrun with ⟨key, hbump, hrun⟩
    cases hrun
    exact Or.inr ⟨key, hne, hbump, rfl⟩

end Plan

/-! ## The builder follows it -/

/-- A builder that was given the pairs, and the plan for them. -/
structure Follows (f : BloomFilter) (entries : List (Bytes × Bytes)) (b : SSTableBuilder)
    (p : Plan) : Prop where
  layout : LayoutInv f entries b p.blocks p.current p.index
  preKey : b.preKey = p.preKey
  offset : b.filterBlockOffset.offset = p.offset

namespace SSTableBuilder

theorem follows_new {fm : FloatMath} {keysNum : ℤ} {b : SSTableBuilder}
    (hrun : new fm keysNum (FileWriter.openFile []) = .ok b) :
    ∃ f, Follows f [] b Plan.start := by
  rcases new_layoutInv hrun with ⟨f, -, hlayout⟩
  rcases bind_eq_ok.1 hrun with ⟨filterBlockBuilder, -, hrun⟩
  cases hrun
  exact ⟨f, hlayout, rfl, rfl⟩

/-- A pair that the builder takes in is taken in by the plan. -/
theorem follows_add {f : BloomFilter} {entries : List (Bytes × Bytes)} {b b' : SSTableBuilder}
    {p : Plan} (h : Follows f entries b p) {entry : Bytes × Bytes}
    (hkeys : ∀ e ∈ entries ++ [entry], e.1 ≠ []) (hrun : b.add entry.1 entry.2 = .ok b') :
    ∃ p', p.add entry = .ok p' ∧ Follows f (entries ++ [entry]) b' p' := by
  have hkey : entry.1 ≠ [] := hkeys entry (by simp)
  have hcurrent : ∀ e ∈ p.current, e.1 ≠ [] := by
    intro e he
    refine hkeys e ?_
    rw [← h.layout.added]
    simp [he]
  have hspec := blockSpec_concat h.layout.spec h.layout.small hcurrent hkey
  have hblock : b.dataBlockBuilder.add entry.1 entry.2 = blockOf (p.current ++ [entry]) := by
    rw [blockOf_concat, h.layout.block]
  rcases add_cases hkey hrun with
    ⟨hbelow, rfl⟩ | ⟨block, w, shortestKey, hdata, hover, happend, hshortest, rfl⟩
  · -- the block stays open
    rw [hblock] at hbelow
    refine ⟨{ p with current := p.current ++ [entry], preKey := entry.1 }, ?_,
      layoutInv_extend h.layout hkey hspec hbelow, rfl, h.offset⟩
    rw [Plan.add, if_neg (not_lt.2 hbelow)]
    rfl
  · -- the block is put away
    rw [hblock] at hdata hover
    rw [h.preKey] at hshortest
    have hsize : asInt32 block.length = Plan.blockSize (p.current ++ [entry]) := by
      rw [hdata]
      rfl
    have hlayout := layoutInv_cut h.layout hkey hspec hdata hover happend
      (by rw [h.preKey]; exact findShortestKey_length hshortest) rfl
    have hplan : p.add entry = .ok
        { blocks := p.blocks ++ [p.current ++ [entry]]
          index := p.index ++ [⟨shortestKey, ⟨Plan.blockSize (p.current ++ [entry]),
            asInt32 (p.offset + Plan.blockSize (p.current ++ [entry]))⟩⟩]
          current := []
          preKey := entry.1
          offset := asInt32 (p.offset + Plan.blockSize (p.current ++ [entry])) } := by
      rw [Plan.add, if_pos hover, Plan.cut, hshortest]
      rfl
    simp only [hsize, h.offset] at hlayout ⊢
    exact ⟨_, hplan, hlayout, rfl, rfl⟩

/-- So a run of additions is a run of the plan. -/
theorem follows_addAll {f : BloomFilter} {b b' : SSTableBuilder} (h : Follows f [] b Plan.start)
    {entries : List (Bytes × Bytes)} (hkeys : ∀ entry ∈ entries, entry.1 ≠ [])
    (hrun : b.addAll entries = .ok b') :
    ∃ p, run Plan.add Plan.start entries = .ok p ∧ Follows f entries b' p := by
  refine run_history_invariant (fun entries b => (∀ entry ∈ entries, entry.1 ≠ []) →
    ∃ p, run Plan.add Plan.start entries = .ok p ∧ Follows f entries b p) ?_ ?_ hrun hkeys
  · intro _
    exact ⟨Plan.start, rfl, h⟩
  · intro entries b entry b' hinv hadd hkeys'
    rcases hinv fun e he => hkeys' e (by simp [he]) with ⟨p, hp, hfollows⟩
    rcases follows_add hfollows hkeys' hadd with ⟨p', hp', hfollows'⟩
    exact ⟨p', run_concat_ok.2 ⟨p, hp, hp'⟩, hfollows'⟩

/-- The last block, too, is put away as it is planned. -/
theorem finishBlocks_follows {f : BloomFilter} {entries : List (Bytes × Bytes)}
    {b b' : SSTableBuilder} {p : Plan} (h : Follows f entries b p)
    (hrun : b.finishBlocks = .ok b') :
    ∃ p', p.finish = .ok p' ∧ FileInv f (entries.map Prod.fst) b' p'.blocks p'.index ∧
      b'.filterBlockOffset.offset = p'.offset := by
  have hempty : b.dataBlockBuilder.size = 0 ↔ p.current = [] := by
    rw [h.layout.block, h.layout.spec.size_eq_zero]
  rcases finishBlocks_cases hrun with
    ⟨hsize, rfl⟩ | ⟨block, w, key, hpos, hdata, happend, hbump, rfl⟩
  · refine ⟨p, ?_, h.layout.file, h.offset⟩
    rw [Plan.finish, if_pos (hempty.1 hsize)]
    rfl
  · rw [h.layout.block] at hdata
    rw [h.preKey] at hbump
    have hsize : asInt32 block.length = Plan.blockSize p.current := by
      rw [hdata]
      rfl
    have hne : p.current ≠ [] := fun hnil => hpos.ne' (hempty.2 hnil)
    have hplan : p.finish = .ok
        { blocks := p.blocks ++ [p.current]
          index := p.index ++ [⟨key, ⟨Plan.blockSize p.current, p.offset⟩⟩]
          current := []
          preKey := key
          offset := asInt32 (p.offset + Plan.blockSize p.current) } := by
      rw [Plan.finish, if_neg hne, hbump]
      rfl
    have hfile := fileInv_last h.layout hdata happend key
    simp only [hsize, h.offset] at hfile ⊢
    exact ⟨_, hplan, hfile, rfl⟩

end SSTableBuilder

/-! ## The file -/

/-- A file has the blocks and the index of a plan, and its footer starts with where
the filter is. -/
structure Written (file : Bytes) (p : Plan) (metaBlock : OffsetInfo) : Prop where
  parts : ∃ filter footer, footer.length = 16 ∧
    file = appendedBlocks p.blocks ++ filter ++ appended (indexBytes p.index) ++ footer
  readMeta : readOffsetInfo file (file.length - 16) = .ok metaBlock
  offset : metaBlock.offset = p.offset

/-- What `finish_sst` puts behind the blocks ends in a footer, which starts with where
the filter is. -/
theorem FileInv.finishMeta_file {fm : FloatMath} {f : BloomFilter} {keys : List Bytes}
    {b b' : SSTableBuilder} {blocks : List (List (Bytes × Bytes))} {index : List IndexBlock}
    (h : FileInv f keys b blocks index) (hrun : b.finishMeta fm = .ok b') :
    ∃ filter footer metaBlock, footer.length = 16 ∧
      b'.fileWriter.file = appendedBlocks blocks ++ filter ++ appended (indexBytes index) ++ footer ∧
      readOffsetInfo b'.fileWriter.file (b'.fileWriter.file.length - 16) = .ok metaBlock ∧
      metaBlock.offset = b.filterBlockOffset.offset := by
  rcases SSTableBuilder.finishMeta_cases hrun with ⟨filter₁, filter₂, metaBlock, indexBlock, w₁, w₂,
    w₃, -, -, hmetaBlock, -, hw₁, hw₂, hw₃, hcontent⟩
  have hfooter : (b.footerBuilder.add metaBlock indexBlock).data =
      encodeOffsetInfo metaBlock ++ encodeOffsetInfo indexBlock := by
    rw [FooterBuilder.add, h.footerCleared, List.nil_append]
  have hwhole : appended (b.footerBuilder.add metaBlock indexBlock).data =
      (b.footerBuilder.add metaBlock indexBlock).data := by
    refine appended_eq_self ?_
    rw [hfooter]
    simp
  have hparts : b'.fileWriter.file = appendedBlocks blocks ++ appended filter₂.data ++
      appended (indexBytes index) ++ (encodeOffsetInfo metaBlock ++ encodeOffsetInfo indexBlock) := by
    rw [hcontent, (appendAll_spec hw₃).2, (appendAll_spec hw₂).2, (appendAll_spec hw₁).2,
      h.stream, h.indexData, hwhole, hfooter]
  refine ⟨_, _, metaBlock, by simp, hparts, ?_, by rw [hmetaBlock]⟩
  have hfields : metaBlock =
      ⟨asInt32 filter₁.data.length, asInt32 (appendedBlocks blocks).length⟩ := by
    rw [hmetaBlock, h.offset]
  have hpos : (b'.fileWriter.file.length : ℤ) - 16 =
      (appendedBlocks blocks ++ appended filter₂.data ++ appended (indexBytes index)).length := by
    rw [hparts]
    simp only [List.length_append, length_encodeOffsetInfo]
    omega
  rw [hpos, hparts, ← List.append_assoc, hfields]
  exact readOffsetInfo_asInt32 _ _ _ _

/-- Every file that a builder finishes is written by the plan for its pairs. -/
theorem finishSst_written {fm : FloatMath} {keysNum : ℤ} {entries : List (Bytes × Bytes)}
    (hkeys : ∀ entry ∈ entries, entry.1 ≠ []) {b₀ b b' : SSTableBuilder}
    (hnew : SSTableBuilder.new fm keysNum (FileWriter.openFile []) = .ok b₀)
    (hadd : b₀.addAll entries = .ok b) (hfinish : b.finishSst fm = .ok b') :
    ∃ p metaBlock, Plan.ofEntries entries = .ok p ∧ Written b'.fileWriter.file p metaBlock := by
  rcases SSTableBuilder.follows_new hnew with ⟨f, hb₀⟩
  rcases SSTableBuilder.follows_addAll hb₀ hkeys hadd with ⟨p₀, hp₀, hb⟩
  rcases bind_eq_ok.1 hfinish with ⟨b₁, hblocks, hmeta⟩
  rcases SSTableBuilder.finishBlocks_follows hb hblocks with ⟨p, hp, hfile, hoffset⟩
  rcases hfile.finishMeta_file hmeta with ⟨filter, footer, metaBlock, hlen, hparts, hread, hend⟩
  exact ⟨p, metaBlock, bind_eq_ok.2 ⟨p₀, hp₀, hp⟩, ⟨filter, footer, hlen, hparts⟩, hread,
    hend.trans hoffset⟩

end Smallkv
