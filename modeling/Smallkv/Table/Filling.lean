import Smallkv.Table.Routing

/-!
# Table.Filling — what stops a builder

`add` and `finish_sst` stop at an assertion of `find_shortest_key`, at one behind
the index, or where a size does not fit an `int32_t`. Which of them is met can be
told from the pairs: they decide which blocks are cut off (`CutsAt`), between which
keys (`lastKey`), and how long the index is by then (`indexSize`). `Filling` says
that the builder has come to the same.
-/

namespace Smallkv

open Fallible PrefixCode

/-! ## Separators -/

/-- The key of the last of these pairs. -/
def lastKey (entries : List (Bytes × Bytes)) : Bytes :=
  (entries.getLast?.map Prod.fst).getD []

@[simp] theorem lastKey_nil : lastKey [] = [] := rfl

@[simp] theorem lastKey_concat (entries : List (Bytes × Bytes)) (entry : Bytes × Bytes) :
    lastKey (entries ++ [entry]) = entry.1 := by
  rw [lastKey, List.getLast?_concat]
  rfl

theorem lastKey_ne_nil {entries : List (Bytes × Bytes)} (hkeys : ∀ entry ∈ entries, entry.1 ≠ [])
    (hne : entries ≠ []) : lastKey entries ≠ [] := by
  rcases List.eq_nil_or_concat entries with rfl | ⟨es, e, rfl⟩
  · exact absurd rfl hne
  · rw [List.concat_eq_append] at hkeys ⊢
    rw [lastKey_concat]
    exact hkeys e (by simp)

theorem bumpLast_ok {key : Bytes} (hne : key ≠ []) :
    ∃ s, SSTableBuilder.bumpLast key = .ok s := by
  rw [SSTableBuilder.bumpLast, List.getLast?_eq_some_getLast hne]
  exact ⟨_, rfl⟩

/-- Keys in strict order have a separator. -/
theorem findShortestKey_ok {key1 key2 : Bytes} (h1 : key1 ≠ []) (h2 : key2 ≠ [])
    (hlt : key1 < key2) : ∃ s, SSTableBuilder.findShortestKey key1 key2 = .ok s := by
  rw [SSTableBuilder.findShortestKey, require_of h1, require_of h2, require_of hlt]
  simp only [ok_bind]
  split
  · exact ⟨_, rfl⟩
  · have htake : key1.take (SSTableBuilder.equalPositions key1 key2 + 1) ≠ [] := by
      intro hnil
      rcases List.take_eq_nil_iff.1 hnil with hzero | hzero
      · omega
      · exact h1 hzero
    exact bumpLast_ok htake

/-! ## The block that is being filled -/

/-- Keys and values of these pairs. -/
def totalBytes (entries : List (Bytes × Bytes)) : ℕ :=
  (entries.map fun entry => entry.1.length + entry.2.length).sum

theorem totalBytes_concat (entries : List (Bytes × Bytes)) (entry : Bytes × Bytes) :
    totalBytes (entries ++ [entry]) =
      totalBytes entries + (entry.1.length + entry.2.length) := by
  rw [totalBytes, List.map_append, List.sum_append, ← totalBytes, List.map_singleton,
    List.sum_singleton]

theorem le_totalBytes {entries : List (Bytes × Bytes)} {entry : Bytes × Bytes}
    (hentry : entry ∈ entries) : entry.1.length + entry.2.length ≤ totalBytes entries :=
  List.single_le_sum (by simp) _ (List.mem_map.2 ⟨entry, hentry, rfl⟩)

theorem openBlock_suffix (entries : List (Bytes × Bytes)) : openBlock entries <:+ entries := by
  induction entries using List.reverseRecOn with
  | nil => exact List.suffix_refl []
  | append_singleton entries entry ih =>
      rw [openBlock_concat]
      split
      · exact List.nil_suffix
      · rcases ih with ⟨front, hfront⟩
        exact ⟨front, by rw [← List.append_assoc, hfront]⟩

theorem openBlock_small (entries : List (Bytes × Bytes)) :
    (blockOf (openBlock entries)).size ≤ kMaxDataBlockSize := by
  rcases List.eq_nil_or_concat entries with rfl | ⟨es, e, rfl⟩
  · exact Nat.zero_le _
  · rw [List.concat_eq_append, openBlock_concat]
    split
    · exact Nat.zero_le _
    · rename_i hopen
      exact not_lt.1 hopen

theorem openBlock_keys {entries : List (Bytes × Bytes)} (hkeys : ∀ entry ∈ entries, entry.1 ≠ []) :
    ∀ entry ∈ openBlock entries, entry.1 ≠ [] :=
  fun entry hentry => hkeys entry ((openBlock_suffix entries).mem hentry)

theorem openBlock_spec {entries : List (Bytes × Bytes)} (hkeys : ∀ entry ∈ entries, entry.1 ≠ []) :
    BlockSpec (openBlock entries) := by
  induction entries using List.reverseRecOn with
  | nil => exact ⟨rfl, rfl, rfl, le_rfl⟩
  | append_singleton entries entry ih =>
      have hfront : ∀ e ∈ entries, e.1 ≠ [] := fun e he => hkeys e (by simp [he])
      rw [openBlock_concat]
      split
      · exact ⟨rfl, rfl, rfl, le_rfl⟩
      · exact SSTableBuilder.blockSpec_concat (ih hfront) (openBlock_small entries) (openBlock_keys hfront)
          (hkeys entry (by simp))

/-- A record takes at most thirteen bytes for each byte of its pair. -/
theorem writeRecords_length_le {entries : List (Bytes × Bytes)}
    (hkeys : ∀ entry ∈ entries, entry.1 ≠ []) :
    (writeRecords entries).length ≤ 13 * totalBytes entries := by
  induction entries using List.reverseRecOn with
  | nil => exact Nat.zero_le _
  | append_singleton entries entry ih =>
      have hfront := ih fun e he => hkeys e (by simp [he])
      have hkey := List.length_pos_of_ne_nil (hkeys entry (by simp))
      have hrecord := (writeRecord_length
        (nextAll RecordState.next RecordState.start entries) entry).2
      rw [writeRecords, encodeAll_concat, ← writeRecords, List.length_append, totalBytes_concat]
      omega

/-! ## The index -/

/-- The index entries of the blocks that are cut off among these pairs: each has the
separator and twelve bytes. -/
def cutsSize (front : List (Bytes × Bytes)) : List (Bytes × Bytes) → ℕ
  | [] => 0
  | entry :: entries =>
    (if CutsAt front entry then 13 + SSTableBuilder.equalPositions (lastKey front) entry.1 else 0) +
      cutsSize (front ++ [entry]) entries

/-- The index of a table with these pairs. -/
def indexSize (entries : List (Bytes × Bytes)) : ℕ :=
  cutsSize [] entries + if openBlock entries = [] then 0 else 12 + (lastKey entries).length

theorem cutsSize_concat (front entries : List (Bytes × Bytes)) (entry : Bytes × Bytes) :
    cutsSize front (entries ++ [entry]) = cutsSize front entries +
      if CutsAt (front ++ entries) entry then
        13 + SSTableBuilder.equalPositions (lastKey (front ++ entries)) entry.1 else 0 := by
  induction entries generalizing front with
  | nil => simp [cutsSize]
  | cons e entries ih =>
      rw [List.cons_append, cutsSize, ih, cutsSize, List.append_assoc, List.singleton_append]
      omega

/-- The pairs of a block pay for its index entry, the key in which is another for
every block. -/
theorem cutsSize_le {entries : List (Bytes × Bytes)} (hkeys : ∀ entry ∈ entries, entry.1 ≠ []) :
    24 * (cutsSize [] entries + (lastKey entries).length) + totalBytes (openBlock entries) ≤
      25 * totalBytes entries := by
  induction entries using List.reverseRecOn with
  | nil => exact le_rfl
  | append_singleton entries entry ih =>
      have hfront : ∀ e ∈ entries, e.1 ≠ [] := fun e he => hkeys e (by simp [he])
      have hbefore := ih hfront
      rw [cutsSize_concat, lastKey_concat, totalBytes_concat, openBlock_concat, List.nil_append]
      by_cases hcut : CutsAt entries entry
      · -- more than 4096 bytes of records
        have hagree := equalPositions_le (lastKey entries) entry.1
        have hspec := SSTableBuilder.blockSpec_concat (openBlock_spec hfront) (openBlock_small entries)
          (openBlock_keys hfront) (hkeys entry (by simp))
        have hpairs : ∀ e ∈ openBlock entries ++ [entry], e.1 ≠ [] := by
          intro e he
          rcases List.mem_append.1 he with he | he
          · exact openBlock_keys hfront e he
          · rw [List.mem_singleton.1 he]
            exact hkeys entry (by simp)
        have hrecords := writeRecords_length_le hpairs
        have hover : 4096 < (writeRecords (openBlock entries ++ [entry])).length := by
          rw [← hspec.data]
          exact hcut
        rw [totalBytes_concat] at hrecords
        rw [if_pos hcut, if_pos hcut]
        have hnil : totalBytes [] = 0 := rfl
        omega
      · rw [if_neg hcut, if_neg hcut, totalBytes_concat]
        omega

theorem indexSize_lt {entries : List (Bytes × Bytes)} (hkeys : ∀ entry ∈ entries, entry.1 ≠ [])
    (htotal : totalBytes entries < 2 ^ 31) : indexSize entries < 2 ^ 32 := by
  have hcuts := cutsSize_le hkeys
  rw [indexSize]
  split
  · omega
  · omega

/-! ## The builder -/

/-- What a builder with the filter `f` has that was given these pairs. -/
structure Filling (f : BloomFilter) (keysNum : ℤ) (entries : List (Bytes × Bytes))
    (b : SSTableBuilder) : Prop where
  block : b.dataBlockBuilder = blockOf (openBlock entries)
  preKey : b.preKey = lastKey entries
  indexData : b.indexData.length = cutsSize [] entries
  indexCleared : b.indexBlockBuilder.data = []
  footerCleared : b.footerBuilder.data = []
  filter : b.filterBlockBuilder = ⟨f, entries.map Prod.fst, []⟩
  keysNum : b.keysNum = keysNum

/-- If a block is cut off here, then there is a key in front of its last one, and its
size fits an `int32_t`. -/
def CutGoesThrough (entries : List (Bytes × Bytes)) (entry : Bytes × Bytes) : Prop :=
  CutsAt entries entry → entries ≠ [] ∧ 0 ≤ Plan.blockSize (openBlock entries ++ [entry])

namespace SSTableBuilder

/-- The writer takes in what has a size. -/
theorem appendAll_ok_iff (w : FileWriter) (data : Bytes) :
    (∃ w', appendAll w data = .ok w') ↔ 0 ≤ asInt32 data.length := by
  constructor
  · rintro ⟨w', hrun⟩
    exact (appendAll_spec hrun).1
  · intro hpos
    have hle := asInt32_le_self data.length
    rw [appendAll, FileWriter.append]
    split
    · exact ⟨w, rfl⟩
    · rcases w.takeIn_spec (data.take (asInt32 data.length).toNat) with ⟨w', htake, -⟩
      rw [require_of ⟨hpos, hle⟩, ok_bind, htake]
      exact ⟨_, rfl⟩

end SSTableBuilder

namespace Filling

open SSTableBuilder

variable {f : BloomFilter} {keysNum : ℤ} {entries : List (Bytes × Bytes)} {b b' : SSTableBuilder}
  {entry : Bytes × Bytes}

theorem block_add (h : Filling f keysNum entries b) :
    b.dataBlockBuilder.add entry.1 entry.2 = blockOf (openBlock entries ++ [entry]) := by
  rw [blockOf_concat, h.block]

/-- A pair is taken in exactly if the block that it fills up goes through. -/
theorem add_ok_iff (h : Filling f keysNum entries b)
    (hkeys : ∀ e ∈ entries ++ [entry], e.1 ≠ [])
    (hbehind : entries ≠ [] → lastKey entries < entry.1) :
    (∃ b', b.add entry.1 entry.2 = .ok b') ↔ CutGoesThrough entries entry := by
  have hkey : entry.1 ≠ [] := hkeys entry (by simp)
  constructor
  · rintro ⟨b', hrun⟩ hcut
    rcases add_cases hkey hrun with ⟨hbelow, -⟩ | ⟨block, w, s, hdata, -, happend, hshortest, -⟩
    · rw [h.block_add] at hbelow
      exact absurd hcut (not_lt.2 hbelow)
    · rw [h.block_add] at hdata
      constructor
      · rintro rfl
        have hpreKey := (findShortestKey_cases hshortest).1
        rw [h.preKey] at hpreKey
        exact hpreKey rfl
      · rw [Plan.blockSize, ← hdata]
        exact (appendAll_spec happend).1
  · intro hgoes
    rw [add, if_neg hkey]
    simp only [cutIfOver, h.block_add]
    by_cases hcut : (blockOf (openBlock entries ++ [entry])).size > kMaxDataBlockSize
    · rcases hgoes hcut with ⟨hne, hsize⟩
      have hfront : ∀ e ∈ entries, e.1 ≠ [] := fun e he => hkeys e (by simp [he])
      rcases (appendAll_ok_iff b.fileWriter _).2 hsize with ⟨w, happend⟩
      rcases findShortestKey_ok (lastKey_ne_nil hfront hne) hkey (hbehind hne) with
        ⟨s, hshortest⟩
      rw [if_pos hcut, cutBlock]
      simp only [happend, h.preKey, hshortest, ok_bind, pure_eq_ok]
      exact ⟨_, rfl⟩
    · rw [if_neg hcut]
      exact ⟨_, rfl⟩

/-- Without a pair in front, `find_shortest_key` gets an empty key and stops at its
first assertion. -/
theorem add_first (h : Filling f keysNum [] b) (hkey : entry.1 ≠ []) (hcut : CutsAt [] entry)
    (hsize : 0 ≤ Plan.blockSize [entry]) : b.add entry.1 entry.2 = .error .assertion := by
  have hover : (blockOf (openBlock [] ++ [entry])).size > kMaxDataBlockSize := hcut
  rcases (appendAll_ok_iff b.fileWriter _).2 hsize with ⟨w, happend⟩
  have hshortest : findShortestKey b.preKey entry.1 = .error .assertion := by
    rw [h.preKey, lastKey_nil]
    rfl
  rw [add, if_neg hkey]
  simp only [cutIfOver, h.block_add]
  rw [if_pos hover, cutBlock]
  simp only [openBlock, List.foldl_nil, List.nil_append, happend, hshortest, ok_bind, error_bind]

theorem filter_add (h : Filling f keysNum entries b) (hkey : entry.1 ≠ []) :
    b.filterBlockBuilder.add entry.1 = ⟨f, (entries ++ [entry]).map Prod.fst, []⟩ := by
  rw [h.filter, FilterBlockBuilder.add, if_neg hkey, List.map_append]
  rfl

/-- And a pair that is taken in is one more. -/
theorem add_keeps (h : Filling f keysNum entries b) (hkey : entry.1 ≠ [])
    (hrun : b.add entry.1 entry.2 = .ok b') : Filling f keysNum (entries ++ [entry]) b' := by
  rcases add_cases hkey hrun with ⟨hbelow, rfl⟩ | ⟨block, w, s, hdata, hover, happend, hshortest, rfl⟩
  · -- the block stays open
    rw [h.block_add] at hbelow
    have hopen : ¬ CutsAt entries entry := not_lt.2 hbelow
    constructor
    case block => rw [h.block_add, openBlock_concat, if_neg hopen]
    case preKey => rw [lastKey_concat]
    case indexData => rw [cutsSize_concat, List.nil_append, if_neg hopen, h.indexData, add_zero]
    case indexCleared => exact h.indexCleared
    case footerCleared => exact h.footerCleared
    case filter => exact h.filter_add hkey
    case keysNum => exact h.keysNum
  · -- the block is cut off
    rw [h.block_add] at hover
    have hcut : CutsAt entries entry := hover
    rw [h.preKey] at hshortest
    constructor
    case block =>
      rw [openBlock_concat, if_pos hcut]
      rfl
    case preKey => rw [lastKey_concat]
    case indexData =>
      rw [cutsSize_concat, List.nil_append, if_pos hcut, ← h.indexData]
      simp only [addIndex, IndexBlockBuilder.add, h.indexCleared, List.nil_append,
        List.length_append, length_encodeFixed32, length_encodeOffsetInfo,
        length_findShortestKey hshortest]
      omega
    case indexCleared => rfl
    case footerCleared => exact h.footerCleared
    case filter => exact h.filter_add hkey
    case keysNum => exact h.keysNum

/-- The last block always goes through, and then the index is complete. -/
theorem finishBlocks_ok (h : Filling f keysNum entries b) (hkeys : ∀ e ∈ entries, e.1 ≠ []) :
    ∃ b', b.finishBlocks = .ok b' ∧ b'.indexData.length = indexSize entries ∧
      b'.footerBuilder.data = [] ∧ b'.filterBlockBuilder = ⟨f, entries.map Prod.fst, []⟩ ∧
      b'.keysNum = keysNum := by
  have hspec := openBlock_spec hkeys
  by_cases hnil : openBlock entries = []
  · -- the last pair has cut its block off
    refine ⟨b, ?_, ?_, h.footerCleared, h.filter, h.keysNum⟩
    · rw [finishBlocks, h.block, hnil]
      rfl
    · rw [indexSize, if_pos hnil, h.indexData, add_zero]
  · have hsize : b.dataBlockBuilder.size > 0 := by
      rw [h.block]
      exact Nat.pos_of_ne_zero fun hzero => hnil (hspec.size_eq_zero.1 hzero)
    have hne : entries ≠ [] := by
      rintro rfl
      exact hnil rfl
    rcases appendAll_progress b.fileWriter (open_block_length_lt hspec (openBlock_small entries)) with
      ⟨w, happend, -⟩
    rcases bumpLast_ok (lastKey_ne_nil hkeys hne) with ⟨key, hbump⟩
    rw [finishBlocks, if_pos hsize]
    simp only [h.block, happend, h.preKey, hbump, ok_bind, pure_eq_ok]
    refine ⟨_, rfl, ?_, h.footerCleared, h.filter, h.keysNum⟩
    rw [indexSize, if_neg hnil, ← h.indexData]
    simp only [addIndex, IndexBlockBuilder.add, h.indexCleared, List.nil_append,
      List.length_append, length_encodeFixed32, length_encodeOffsetInfo, bumpLast_length hbump]
    omega

end Filling

/-! ## The filter -/

/-- For this number of keys the product with the logarithm is in range: it has the
sign of a logarithm below zero, and the bits that it asks for can be counted. -/
structure FloatMath.InRange (fm : FloatMath) (keysNum : ℤ) : Prop where
  sign : fm.bitsNum keysNum < 0 ↔ 0 < keysNum
  range : -fm.bitsNum keysNum + 7 < 2 ^ 31

namespace BloomFilter

variable {fm : FloatMath} {keysNum : ℤ} {f : BloomFilter}

/-- For one key or more there are bits. -/
theorem new_progress (hfm : fm.InRange keysNum) (hnum : 0 < keysNum) :
    ∃ f, BloomFilter.new fm keysNum = .ok f ∧ f.Sized := by
  have hneg := hfm.sign.2 hnum
  have hrange := hfm.range
  have hdiv : (-1 * fm.bitsNum keysNum + 7).tdiv 8 = (-1 * fm.bitsNum keysNum + 7) / 8 :=
    Int.tdiv_eq_ediv_of_nonneg (by omega)
  have hbytes : 0 ≤ (-1 * fm.bitsNum keysNum + 7).tdiv 8 := by
    rw [hdiv]
    omega
  have hkeys : keysNum ≠ 0 := hnum.ne'
  rw [BloomFilter.new, require_of hbytes, ok_bind, require_of hkeys]
  refine ⟨_, rfl, ?_⟩
  rw [Sized, List.length_replicate, hdiv]
  omega

/-- For none there are no bits, if there is a filter at all, but there is a hash. -/
theorem new_nonpos (hfm : fm.InRange keysNum) (hnum : ¬ 0 < keysNum)
    (hrun : BloomFilter.new fm keysNum = .ok f) : f.bitsArray = [] ∧ 1 ≤ f.hashFuncNum := by
  rcases bind_eq_ok.1 hrun with ⟨_, -, hrun⟩
  rcases bind_eq_ok.1 hrun with ⟨_, -, hrun⟩
  cases hrun
  constructor
  · have hpos : 0 ≤ fm.bitsNum keysNum := not_lt.1 (mt hfm.sign.1 hnum)
    have hbytes : (-1 * fm.bitsNum keysNum + 7).tdiv 8 ≤ (7 : ℤ).tdiv 8 :=
      Int.tdiv_le_tdiv (by omega) (by omega)
    have hseven : (7 : ℤ).tdiv 8 = 0 := rfl
    have hzero : ((-1 * fm.bitsNum keysNum + 7).tdiv 8).toNat = 0 := by omega
    simp only [hzero]
    rfl
  · simp only
    split <;> split <;> omega

/-- A key cannot be put into such a filter. -/
theorem createFilter_nothing {keys : List Bytes} {g : BloomFilter} (hbits : f.bitsArray = [])
    (hhash : 1 ≤ f.hashFuncNum) (hkeys : keys ≠ []) : f.createFilter keys ≠ .ok g := by
  intro hrun
  rcases bind_eq_ok.1 hrun with ⟨_, hcheck, -⟩
  rcases require_eq_ok.1 hcheck with hnil | hnone | hsize
  · exact hkeys hnil
  · omega
  · rw [hbits] at hsize
    exact hsize rfl

end BloomFilter

namespace SSTableBuilder

/-- The assertion in front of the footer. -/
theorem finishMeta_index {fm : FloatMath} {b b' : SSTableBuilder}
    (hrun : b.finishMeta fm = .ok b') : 0 < asInt32 b.indexData.length := by
  rcases bind_eq_ok.1 hrun with ⟨filter₁, -, hrun⟩
  rcases bind_eq_ok.1 hrun with ⟨filter₂, -, hrun⟩
  rcases bind_eq_ok.1 hrun with ⟨w₁, -, hrun⟩
  rcases bind_eq_ok.1 hrun with ⟨w₂, -, hrun⟩
  rcases bind_eq_ok.1 hrun with ⟨_, hcheck, -⟩
  exact require_eq_ok.1 hcheck

/-- Behind the data blocks, nothing but the size of the index matters. -/
theorem finishMeta_progress {fm : FloatMath} {b : SSTableBuilder} {f : BloomFilter}
    {keys : List Bytes} {data : Bytes} (hfilter : b.filterBlockBuilder = ⟨f, keys, data⟩)
    (hf : f.Sized) {g : BloomFilter} (hnew : BloomFilter.new fm b.keysNum = .ok g)
    (hfooter : b.footerBuilder.data = []) (hpos : 0 < asInt32 b.indexData.length) :
    ∃ b', b.finishMeta fm = .ok b' := by
  rcases finishFilterBlock_progress hf keys data with ⟨f₁, hfinish₁, hf₁⟩
  rcases finishFilterBlock_progress hf₁ keys (filterBytes f₁) with ⟨f₂, hfinish₂, hf₂⟩
  have hbytes : (filterBytes f₂).length < 2 ^ 31 := by
    have hlt := hf₂.2
    rw [length_filterBytes]
    omega
  rcases appendAll_progress b.fileWriter hbytes with ⟨w₁, hw₁, -⟩
  rw [finishMeta, hfilter, hfinish₁, ok_bind, hfinish₂, ok_bind, hw₁, ok_bind]
  rcases (appendAll_ok_iff w₁ b.indexData).2 hpos.le with ⟨w₂, hw₂⟩
  have hwhole : ∀ metaBlock indexBlock,
      (b.footerBuilder.add metaBlock indexBlock).data.length < 2 ^ 31 := by
    intro metaBlock indexBlock
    simp [FooterBuilder.add, hfooter]
  rcases appendAll_progress w₂
    (hwhole ⟨asInt32 (filterBytes f₁).length, b.filterBlockOffset.offset⟩
      ⟨asInt32 b.indexData.length,
        asInt32 (b.filterBlockOffset.offset + asInt32 (filterBytes f₁).length)⟩) with ⟨w₃, hw₃, -⟩
  have hcleared : FilterBlockBuilder.new fm b.keysNum = .ok ⟨g, [], []⟩ :=
    bind_eq_ok.2 ⟨g, hnew, rfl⟩
  rw [hw₂, ok_bind, require_of hpos, ok_bind]
  dsimp only
  rw [hw₃, ok_bind, hcleared, ok_bind]
  exact ⟨_, rfl⟩

theorem finishSst_progress {fm : FloatMath} {keysNum : ℤ} {f : BloomFilter}
    (hnew : BloomFilter.new fm keysNum = .ok f) (hf : f.Sized) {entries : List (Bytes × Bytes)}
    (hkeys : ∀ entry ∈ entries, entry.1 ≠ []) {b : SSTableBuilder}
    (h : Filling f keysNum entries b) (hpos : 0 < asInt32 (indexSize entries)) :
    ∃ b', b.finishSst fm = .ok b' := by
  rcases h.finishBlocks_ok hkeys with ⟨b₁, hblocks, hindex, hfooter, hfilter, hnum⟩
  rw [← hindex] at hpos
  rw [← hnum] at hnew
  rw [finishSst, hblocks, ok_bind]
  exact finishMeta_progress hfilter hf hnew hfooter hpos

/-- So `finish_sst` gets to its end with an index that has a size only. -/
theorem finishSst_index {fm : FloatMath} {keysNum : ℤ} {f : BloomFilter}
    {entries : List (Bytes × Bytes)} (hkeys : ∀ entry ∈ entries, entry.1 ≠ [])
    {b b' : SSTableBuilder} (h : Filling f keysNum entries b) (hrun : b.finishSst fm = .ok b') :
    0 < asInt32 (indexSize entries) := by
  rcases h.finishBlocks_ok hkeys with ⟨b₁, hblocks, hindex, -⟩
  rw [finishSst, hblocks, ok_bind] at hrun
  rw [← hindex]
  exact finishMeta_index hrun

/-- For no keys that are counted, `finish_sst` divides by zero. -/
theorem finishSst_nonpos {fm : FloatMath} {keysNum : ℤ} (hfm : fm.InRange keysNum)
    (hnum : ¬ 0 < keysNum) {f : BloomFilter} (hnew : BloomFilter.new fm keysNum = .ok f)
    {entries : List (Bytes × Bytes)} (hne : entries ≠ [])
    (hkeys : ∀ entry ∈ entries, entry.1 ≠ []) {b b' : SSTableBuilder}
    (h : Filling f keysNum entries b) : b.finishSst fm ≠ .ok b' := by
  intro hrun
  rcases h.finishBlocks_ok hkeys with ⟨b₁, hblocks, -, -, hfilter, -⟩
  rw [finishSst, hblocks, ok_bind] at hrun
  rcases finishMeta_cases hrun with ⟨filter₁, _, _, _, _, _, _, hfinish, -⟩
  rw [hfilter] at hfinish
  rcases FilterBlockBuilder.finishFilterBlock_ok hfinish with ⟨policy, hpolicy, -⟩
  rcases BloomFilter.new_nonpos hfm hnum hnew with ⟨hbits, hhash⟩
  exact BloomFilter.createFilter_nothing hbits hhash (by simpa using hne) hpolicy

end SSTableBuilder

end Smallkv
