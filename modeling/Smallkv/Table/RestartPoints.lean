import Smallkv.Table.Layout

/-!
# Table.RestartPoints — what is behind the records

`finish_data_block` writes a restart point for every group and then their number.
The restart points have the ranges of the groups, but the last one has the number
of records modulo the interval, which is no number of records when the last group
is complete. `FindKeyInDB` looks for their number and their offset in the last
twelve bytes, where the number is behind and the offset is not written at all.
-/

namespace Smallkv

open Fallible PrefixCode Extents

/-! ## The trailer -/

/-- The record number in the restart point of a group. -/
def groupRecordNum (entries : List (Bytes × Bytes)) (i : ℕ) : ℤ :=
  if i + 1 = groupNum entries then (asInt32 entries.length).tmod kRestartInterval
  else kRestartInterval

/-- The restart point of a group. -/
def groupPoint (entries : List (Bytes × Bytes)) (i : ℕ) : Bytes :=
  DataBlockBuilder.restartPoint (groupRecordNum entries i)
    ⟨asInt32 (writeRecords (group entries i)).length, asInt32 (groupStart entries i)⟩

def groupPoints (entries : List (Bytes × Bytes)) : List Bytes :=
  (List.range (groupNum entries)).map (groupPoint entries)

/-- The number that is written behind the restart points. -/
def writtenNum (entries : List (Bytes × Bytes)) : ℤ :=
  DataBlockBuilder.restartPointNum (asInt32 entries.length)

/-- The loop over the groups, for offsets that are given by a function: the last
group ends where one more would start. -/
theorem restartPoints_map (recordNum : ℤ) (f : ℕ → ℤ) (start k : ℕ) :
    DataBlockBuilder.restartPoints recordNum (f (start + k)) ((List.range' start k).map f) =
      (List.range' start k).flatMap fun i =>
        DataBlockBuilder.restartPoint
          (if i + 1 = start + k then recordNum.tmod kRestartInterval else kRestartInterval)
          ⟨asInt32 (f (i + 1) - f i), f i⟩ := by
  induction k generalizing start with
  | zero => rfl
  | succ k ih =>
      cases k with
      | zero => simp [DataBlockBuilder.restartPoints]
      | succ k =>
          have hrest := ih (start + 1)
          rw [show start + 1 + (k + 1) = start + (k + 1 + 1) by omega] at hrest
          have hlast : ¬ start + 1 = start + (k + 1 + 1) := by omega
          rw [List.range'_succ, List.map_cons, List.flatMap_cons, if_neg hlast, ← hrest,
            List.range'_succ, List.map_cons, DataBlockBuilder.restartPoints]

theorem trailer_eq {entries : List (Bytes × Bytes)} (h : BlockFields entries) :
    (blockOf entries).trailer =
      (groupPoints entries).flatten ++ encodeFixed32 (asUInt32 (writtenNum entries)) := by
  have hend : (blockOf entries).size = groupStart entries (groupNum entries) := by
    rw [groupStart_groupNum, DataBlockBuilder.size, h.data]
  have hsize : ∀ i ∈ List.range (groupNum entries),
      asInt32 (asInt32 (groupStart entries (i + 1)) - asInt32 (groupStart entries i)) =
        asInt32 (writeRecords (group entries i)).length := by
    intro i hi
    rw [asInt32_sub, groupStart_succ entries (List.mem_range.1 hi), Nat.cast_add,
      add_sub_cancel_left]
  have hpoints := restartPoints_map (asInt32 entries.length)
    (fun i => asInt32 (groupStart entries i)) 0 (groupNum entries)
  rw [← List.range_eq_range', List.flatMap_def, zero_add] at hpoints
  rw [DataBlockBuilder.trailer, h.recordNum, h.groupOffsets, hend, hpoints, writtenNum, groupPoints]
  rw [List.map_congr_left (g := groupPoint entries)]
  intro i hi
  rw [hsize i hi, groupPoint, groupRecordNum]

theorem length_groupPoint (entries : List (Bytes × Bytes)) (i : ℕ) :
    (groupPoint entries i).length = 12 := by
  rw [groupPoint, DataBlockBuilder.restartPoint, List.length_append, length_encodeFixed32,
    length_encodeOffsetInfo]

theorem length_flatten_take_groupPoints (entries : List (Bytes × Bytes)) {i : ℕ}
    (hi : i ≤ groupNum entries) : ((groupPoints entries).take i).flatten.length = 12 * i := by
  have hconst : ∀ l ∈ ((groupPoints entries).take i).map List.length, l = 12 := by
    intro l hl
    rcases List.mem_map.1 hl with ⟨point, hpoint, rfl⟩
    rcases List.mem_map.1 (List.mem_of_mem_take hpoint) with ⟨j, -, rfl⟩
    exact length_groupPoint entries j
  rw [List.length_flatten, List.sum_eq_card_nsmul _ _ hconst, List.length_map, List.length_take,
    groupPoints, List.length_map, List.length_range, min_eq_left hi, smul_eq_mul, mul_comm]

/-! ## Reading it -/

theorem groupRecordNum_bounds (entries : List (Bytes × Bytes)) (i : ℕ) :
    -2 ^ 31 ≤ groupRecordNum entries i ∧ groupRecordNum entries i < 2 ^ 31 := by
  unfold groupRecordNum kRestartInterval
  split
  · have hlow := Int.lt_tmod_of_pos (asInt32 entries.length) (b := 16) (by norm_num)
    have hhigh := Int.tmod_lt_of_pos (asInt32 entries.length) (b := 16) (by norm_num)
    push_cast
    omega
  · norm_num

/-- A finished block around the restart point of a group. -/
theorem finished_around {entries : List (Bytes × Bytes)} (h : BlockFields entries) {i : ℕ}
    (hi : i < groupNum entries) : ∃ front rest,
      (blockOf entries).finishDataBlock.data = front ++ groupPoint entries i ++ rest ∧
        front.length = (writeRecords entries).length + 12 * i := by
  have hpoint : (groupPoints entries)[i]? = some (groupPoint entries i) := by
    rw [groupPoints, List.getElem?_map, List.getElem?_range hi]
    rfl
  refine ⟨writeRecords entries ++ ((groupPoints entries).take i).flatten,
    ((groupPoints entries).drop (i + 1)).flatten ++ encodeFixed32 (asUInt32 (writtenNum entries)),
    ?_, ?_⟩
  · rw [DataBlockBuilder.finishDataBlock, h.data, trailer_eq h, flatten_split hpoint]
    simp only [List.append_assoc]
  · rw [List.length_append, length_flatten_take_groupPoints entries hi.le]

/-- What is read at a restart point. -/
theorem read_groupPoint {entries : List (Bytes × Bytes)} (h : BlockFields entries) {i : ℕ}
    (hi : i < groupNum entries) :
    SSTParser.readInt32 (blockOf entries).finishDataBlock.data
        ((writeRecords entries).length + 12 * i) = .ok (groupRecordNum entries i) ∧
      readOffsetInfo (blockOf entries).finishDataBlock.data
        ((writeRecords entries).length + 12 * i + 4) =
          .ok ⟨asInt32 (writeRecords (group entries i)).length, asInt32 (groupStart entries i)⟩ := by
  rcases finished_around h hi with ⟨front, rest, hdata, hfront⟩
  rw [groupPoint, DataBlockBuilder.restartPoint] at hdata
  have hbounds := groupRecordNum_bounds entries i
  constructor
  · refine readInt32_at hbounds.1 hbounds.2 (a := front) (c := encodeOffsetInfo
      ⟨asInt32 (writeRecords (group entries i)).length, asInt32 (groupStart entries i)⟩ ++ rest)
      ?_ ?_
    · rw [hdata]
      simp only [List.append_assoc]
    · omega
  · have hpos : ((writeRecords entries).length : ℤ) + 12 * i + 4 =
        (front ++ encodeFixed32 (asUInt32 (groupRecordNum entries i))).length := by
      rw [List.length_append, length_encodeFixed32]
      omega
    rw [hpos, hdata, ← List.append_assoc front]
    exact readOffsetInfo_asInt32 _ _ _ _

/-! ## Restart points and groups -/

/-- The block is its groups, then a restart point for each, then their number: a
restart point has the range of its group, and how many records are in it. -/
structure RestartPointsPartition (entries : List (Bytes × Bytes)) (data : Bytes) : Prop where
  groups : (groupParts entries).flatten = writeRecords entries
  layout : ∃ points, data = writeRecords entries ++ points ++ encodeFixed32 (groupNum entries) ∧
    points.length = 12 * groupNum entries
  ranges : ∀ (i : ℕ) range, (extents 0 (groupParts entries))[i]? = some range →
    readOffsetInfo data ((writeRecords entries).length + 12 * i + 4) =
        .ok (OffsetInfo.ofRange range) ∧
      slice data range.1 range.2 = .ok (writeRecords (group entries i))
  recordNum : ∀ i < groupNum entries,
    SSTParser.readInt32 data ((writeRecords entries).length + 12 * i) =
      .ok (group entries i).length

/-- The ranges fit into an `OffsetInfo`. -/
def RangesFit (entries : List (Bytes × Bytes)) : Prop :=
  ∀ range ∈ extents 0 (groupParts entries), range.1 < 2 ^ 31 ∧ range.2 < 2 ^ 31

theorem ofRange_eq_iff (range : ℕ × ℕ) :
    (⟨asInt32 range.2, asInt32 range.1⟩ : OffsetInfo) = OffsetInfo.ofRange range ↔
      range.1 < 2 ^ 31 ∧ range.2 < 2 ^ 31 := by
  rw [OffsetInfo.ofRange, OffsetInfo.mk.injEq, asInt32_eq_iff (Int.natCast_nonneg _),
    asInt32_eq_iff (Int.natCast_nonneg _)]
  omega

theorem groupNum_pos {entries : List (Bytes × Bytes)} (hne : entries ≠ []) :
    0 < groupNum entries := by
  have hpos := List.length_pos_of_ne_nil hne
  unfold groupNum kRestartInterval
  omega

/-- A group is complete, or it is the last one. -/
theorem length_group (entries : List (Bytes × Bytes)) {i : ℕ} (hi : i < groupNum entries) :
    (group entries i).length =
      if i + 1 = groupNum entries then entries.length - kRestartInterval * i
      else kRestartInterval := by
  rw [group, List.length_take, List.length_drop]
  unfold groupNum kRestartInterval at *
  split
  · omega
  · omega

/-- The record number of a group is right unless the group is the last one, and
complete. -/
theorem groupRecordNum_eq_iff {entries : List (Bytes × Bytes)} (hlen : entries.length < 2 ^ 31)
    {i : ℕ} (hi : i < groupNum entries) :
    groupRecordNum entries i = (group entries i).length ↔
      (i + 1 = groupNum entries → entries.length % kRestartInterval ≠ 0) := by
  rw [groupRecordNum, length_group entries hi, asInt32_of_lt (Int.natCast_nonneg _) (by omega)]
  split
  · rename_i hlast
    unfold groupNum kRestartInterval at *
    rw [← Int.ofNat_tmod]
    omega
  · rename_i hnot
    simp [hnot]

/-- `static_cast<int>((record_num - 0.5) / 16) + 1` is the number of groups. -/
theorem writtenNum_eq {entries : List (Bytes × Bytes)} (hne : entries ≠ [])
    (hlen : entries.length < 2 ^ 31) : writtenNum entries = groupNum entries := by
  have hpos := List.length_pos_of_ne_nil hne
  rw [writtenNum, DataBlockBuilder.restartPointNum,
    asInt32_of_lt (Int.natCast_nonneg _) (by omega), Int.tdiv_eq_ediv_of_nonneg (by omega)]
  unfold groupNum kRestartInterval
  omega

/-- Keys are not empty, so there are no more of them than bytes. -/
theorem length_le_total {entries : List (Bytes × Bytes)} (hkeys : ∀ entry ∈ entries, entry.1 ≠ []) :
    entries.length ≤ (entries.map fun entry => entry.1.length + entry.2.length).sum := by
  have hone : ∀ l ∈ entries.map fun entry => entry.1.length + entry.2.length, 1 ≤ l := by
    intro l hl
    rcases List.mem_map.1 hl with ⟨entry, hentry, rfl⟩
    have hpos := List.length_pos_of_ne_nil (hkeys entry hentry)
    omega
  simpa using List.length_le_sum_of_one_le _ hone

theorem partition_layout {entries : List (Bytes × Bytes)} (h : BlockFields entries)
    (hne : entries ≠ []) (hlen : entries.length < 2 ^ 31) :
    ∃ points, (blockOf entries).finishDataBlock.data =
        writeRecords entries ++ points ++ encodeFixed32 (groupNum entries) ∧
      points.length = 12 * groupNum entries := by
  refine ⟨(groupPoints entries).flatten, ?_, ?_⟩
  · have hnum : asUInt32 (writtenNum entries) = groupNum entries := by
      have hle := length_le_groupNum entries
      rw [writtenNum_eq hne hlen, asUInt32]
      unfold groupNum kRestartInterval at *
      omega
    rw [DataBlockBuilder.finishDataBlock, h.data, trailer_eq h, hnum, List.append_assoc]
  · have hpoints := length_flatten_take_groupPoints entries le_rfl
    rwa [List.take_of_length_le (by simp [groupPoints])] at hpoints

/-- The bytes at the range of a group are the group. -/
theorem slice_group {entries : List (Bytes × Bytes)} (h : BlockFields entries) {i : ℕ}
    (hi : i < groupNum entries) :
    slice (blockOf entries).finishDataBlock.data (groupStart entries i)
      (writeRecords (group entries i)).length = .ok (writeRecords (group entries i)) := by
  have hsplit := flatten_split (getElem?_groupParts hi)
  rw [flatten_groupParts, flatten_take_groupParts entries hi.le] at hsplit
  rw [DataBlockBuilder.finishDataBlock, h.data, hsplit, List.append_assoc _ _ (blockOf entries).trailer]
  exact slice_append (by rw [groupStart]) rfl

/-- The last group of a partition is not complete. -/
theorem RestartPointsPartition.incomplete {entries : List (Bytes × Bytes)} (h : BlockFields entries)
    (hne : entries ≠ []) (hlen : entries.length < 2 ^ 31)
    (hpartition : RestartPointsPartition entries (blockOf entries).finishDataBlock.data) :
    entries.length % kRestartInterval ≠ 0 := by
  have hpos := groupNum_pos hne
  have hlast : groupNum entries - 1 < groupNum entries := by omega
  have hread := (read_groupPoint h hlast).1.symm.trans (hpartition.recordNum _ hlast)
  refine (groupRecordNum_eq_iff hlen hlast).1 (Except.ok.inj hread) ?_
  omega

theorem RestartPointsPartition.rangesFit {entries : List (Bytes × Bytes)} (h : BlockFields entries)
    (hpartition : RestartPointsPartition entries (blockOf entries).finishDataBlock.data) :
    RangesFit entries := by
  intro range hrange
  rcases List.mem_iff_getElem?.1 hrange with ⟨i, hi⟩
  have hi' := lt_groupNum_of_range hi
  have hread := (read_groupPoint h hi').2.symm.trans (hpartition.ranges i range hi).1
  rw [getElem?_groupRanges entries hi', Option.some.injEq] at hi
  subst hi
  exact (ofRange_eq_iff _).1 (Except.ok.inj hread)

theorem partition_of_fit {entries : List (Bytes × Bytes)} (h : BlockFields entries)
    (hne : entries ≠ []) (hlen : entries.length < 2 ^ 31)
    (hrest : entries.length % kRestartInterval ≠ 0) (hfit : RangesFit entries) :
    RestartPointsPartition entries (blockOf entries).finishDataBlock.data := by
  constructor
  case groups => exact flatten_groupParts entries
  case layout => exact partition_layout h hne hlen
  case ranges =>
    intro i range hi
    have hi' := lt_groupNum_of_range hi
    have hfits := (ofRange_eq_iff range).2 (hfit range (List.mem_of_getElem? hi))
    rw [getElem?_groupRanges entries hi', Option.some.injEq] at hi
    subst hi
    rw [← hfits]
    exact ⟨(read_groupPoint h hi').2, slice_group h hi'⟩
  case recordNum =>
    intro i hi
    rw [(read_groupPoint h hi).1, (groupRecordNum_eq_iff hlen hi).2 fun _ => hrest]

/-- The restart points of a block partition it, with the number of records in every
group, exactly when the last group is not complete, as long as the ranges fit into
their fields. -/
theorem restartPointsPartition_iff (b : DataBlockBuilder) {entries : List (Bytes × Bytes)}
    (hne : entries ≠ []) (hkeys : ∀ entry ∈ entries, entry.1 ≠ [])
    (htotal : (entries.map fun entry => entry.1.length + entry.2.length).sum < 2 ^ 31) :
    RestartPointsPartition entries
        (entries.foldl (fun b entry => b.add entry.1 entry.2) b.clear).finishDataBlock.data ↔
      entries.length % kRestartInterval ≠ 0 ∧ RangesFit entries := by
  have h := blockFields hkeys
  have hlen : entries.length < 2 ^ 31 := lt_of_le_of_lt (length_le_total hkeys) htotal
  show RestartPointsPartition entries (blockOf entries).finishDataBlock.data ↔ _
  constructor
  · intro hpartition
    exact ⟨hpartition.incomplete h hne hlen, hpartition.rangesFit h⟩
  · rintro ⟨hrest, hfit⟩
    exact partition_of_fit h hne hlen hrest hfit

/-- Three pairs. -/
theorem restartPointsPartition_iff_three :
    RestartPointsPartition [(ascii "a", ascii "x"), (ascii "ab", []), (ascii "b", [])]
        ([(ascii "a", ascii "x"), (ascii "ab", []), (ascii "b", [])].foldl
          (fun b entry => b.add entry.1 entry.2)
          DataBlockBuilder.empty.clear).finishDataBlock.data ↔
      [(ascii "a", ascii "x"), (ascii "ab", []), (ascii "b", [])].length % kRestartInterval ≠ 0 ∧
        RangesFit [(ascii "a", ascii "x"), (ascii "ab", []), (ascii "b", [])] :=
  restartPointsPartition_iff DataBlockBuilder.empty (by decide) (by decide) (by decide)

/-- Of a complete last group the restart point has no records. -/
theorem sixteen_not_partition :
    ¬ RestartPointsPartition ((List.range 16).map fun i => ([UInt8.ofNat i], []))
      (blockOf ((List.range 16).map fun i => ([UInt8.ofNat i], []))).finishDataBlock.data := by
  intro hpartition
  have hread := hpartition.recordNum 0 (by decide)
  revert hread
  decide +kernel

/-! ## The trailer and its reader -/

/-- The block `data` is somewhere in the content of a file, and what `FindKeyInDB`
takes for the number of restart points and for where they are is this. -/
structure TrailerAgrees (entries : List (Bytes × Bytes)) (a data c : Bytes) : Prop where
  restartNum : SSTParser.readInt32 (a ++ data ++ c) (a.length + data.length - 12) =
    .ok (groupPoints entries).length
  restartOffset : readOffsetInfo (a ++ data ++ c) (a.length + data.length - 8) =
    .ok (OffsetInfo.ofRange
      ((writeRecords entries).length, (groupPoints entries).flatten.length))
  visits : ∀ restartOffset,
    readOffsetInfo (a ++ data ++ c) (a.length + data.length - 8) = .ok restartOffset →
      ∀ (i : ℕ) point, (groupPoints entries)[i]? = some point →
        slice (a ++ data ++ c) (a.length + restartOffset.offset + i * 12) 12 = .ok point

theorem writtenNum_le {entries : List (Bytes × Bytes)} (hne : entries ≠ []) :
    -2 ^ 31 ≤ writtenNum entries ∧ writtenNum entries < 2 ^ 31 ∧
      writtenNum entries ≤ entries.length := by
  have hpos := List.length_pos_of_ne_nil hne
  have hbounds := asInt32_bounds entries.length
  have hle := asInt32_le_self entries.length
  unfold writtenNum DataBlockBuilder.restartPointNum
  generalize asInt32 entries.length = x at hbounds hle ⊢
  by_cases hx : 0 ≤ 2 * x - 1
  · rw [Int.tdiv_eq_ediv_of_nonneg hx]
    omega
  · have hneg : 2 * x - 1 = -(1 - 2 * x) := by omega
    rw [hneg, Int.neg_tdiv, Int.tdiv_eq_ediv_of_nonneg (by omega)]
    omega

/-- How a finished block ends. -/
theorem finished_end {entries : List (Bytes × Bytes)} (h : BlockFields entries)
    (hne : entries ≠ []) : ∃ front, (blockOf entries).finishDataBlock.data = front ++
      encodeFixed32 (asUInt32 (asInt32
        (writeRecords (group entries (groupNum entries - 1))).length)) ++
      (encodeFixed32 (asUInt32 (asInt32 (groupStart entries (groupNum entries - 1)))) ++
        encodeFixed32 (asUInt32 (writtenNum entries))) := by
  have hpos := groupNum_pos hne
  have hpoints : groupPoints entries = (List.range (groupNum entries - 1)).map
      (groupPoint entries) ++ [groupPoint entries (groupNum entries - 1)] := by
    rw [groupPoints, ← Nat.sub_add_cancel hpos, List.range_succ, List.map_append,
      List.map_singleton, Nat.add_sub_cancel]
  refine ⟨writeRecords entries ++
    ((List.range (groupNum entries - 1)).map (groupPoint entries)).flatten ++
      encodeFixed32 (asUInt32 (groupRecordNum entries (groupNum entries - 1))), ?_⟩
  rw [DataBlockBuilder.finishDataBlock, h.data, trailer_eq h, hpoints, List.flatten_concat,
    groupPoint, DataBlockBuilder.restartPoint, encodeOffsetInfo_eq]
  simp only [List.append_assoc]

/-- The last twelve bytes of a block are size and offset of the last group and the
number of groups, and `FindKeyInDB` takes the size for the number, the offset for
the size and the number for the offset. -/
theorem read_trailer {entries : List (Bytes × Bytes)} (h : BlockFields entries)
    (hne : entries ≠ []) (a c : Bytes) :
    SSTParser.readInt32 (a ++ (blockOf entries).finishDataBlock.data ++ c)
        (a.length + (blockOf entries).finishDataBlock.data.length - 12) =
          .ok (asInt32 (writeRecords (group entries (groupNum entries - 1))).length) ∧
      readOffsetInfo (a ++ (blockOf entries).finishDataBlock.data ++ c)
        (a.length + (blockOf entries).finishDataBlock.data.length - 8) =
          .ok ⟨asInt32 (groupStart entries (groupNum entries - 1)), writtenNum entries⟩ := by
  rcases finished_end h hne with ⟨front, hdata⟩
  have hsize := asInt32_bounds (writeRecords (group entries (groupNum entries - 1))).length
  have hstart := asInt32_bounds (groupStart entries (groupNum entries - 1))
  have hnum := writtenNum_le hne
  have hlen : (blockOf entries).finishDataBlock.data.length = front.length + 12 := by
    rw [hdata]
    simp only [List.length_append, length_encodeFixed32]
  constructor
  · refine readInt32_at hsize.1 hsize.2 (a := a ++ front) (c := encodeFixed32
      (asUInt32 (asInt32 (groupStart entries (groupNum entries - 1)))) ++
        encodeFixed32 (asUInt32 (writtenNum entries)) ++ c) ?_ ?_
    · rw [hdata]
      simp only [List.append_assoc]
    · rw [hlen, List.length_append]
      omega
  · -- two fields that belong to different records are read as one pair
    have hpos : (a.length : ℤ) + (blockOf entries).finishDataBlock.data.length - 8 =
        (a ++ front ++ encodeFixed32 (asUInt32
          (asInt32 (writeRecords (group entries (groupNum entries - 1))).length))).length := by
      rw [hlen, List.length_append, List.length_append, length_encodeFixed32]
      omega
    have hcontent : a ++ (blockOf entries).finishDataBlock.data ++ c =
        a ++ front ++ encodeFixed32 (asUInt32
          (asInt32 (writeRecords (group entries (groupNum entries - 1))).length)) ++
          encodeOffsetInfo ⟨asInt32 (groupStart entries (groupNum entries - 1)),
            writtenNum entries⟩ ++ c := by
      rw [hdata, encodeOffsetInfo_eq]
      simp only [List.append_assoc]
    rw [hpos, hcontent]
    refine readOffsetInfo_append ?_ ?_ _ c
    · simpa only using hstart
    · simpa only using And.intro hnum.1 hnum.2.1

/-- The trailer never agrees with its reader: the restart points would have to
start at their number, and the records in front of them are longer. -/
theorem not_trailerAgrees {entries : List (Bytes × Bytes)} (hne : entries ≠ [])
    (hkeys : ∀ entry ∈ entries, entry.1 ≠ []) (a c : Bytes) :
    ¬ TrailerAgrees entries a (blockOf entries).finishDataBlock.data c := by
  intro hagrees
  have hread := (read_trailer (blockFields hkeys) hne a c).2.symm.trans hagrees.restartOffset
  have hoffset : writtenNum entries = (writeRecords entries).length := by
    have hinj := Except.ok.inj hread
    rw [OffsetInfo.ofRange, OffsetInfo.mk.injEq] at hinj
    exact hinj.2
  have hle := (writtenNum_le hne).2.2
  have hpos := List.length_pos_of_ne_nil hne
  have hrecords := writeRecords_length entries
  omega

/-- One pair, in a block of its own. -/
theorem not_trailerAgrees_one :
    [(ascii "a", ascii "x")] ≠ [] ∧ (∀ entry ∈ [(ascii "a", ascii "x")], entry.1 ≠ []) ∧
      ¬ TrailerAgrees [(ascii "a", ascii "x")] []
        (blockOf [(ascii "a", ascii "x")]).finishDataBlock.data [] :=
  ⟨by decide, by decide, not_trailerAgrees (by decide) (by decide) [] []⟩

/-- Its only group takes fourteen bytes, and they are taken for the number of groups. -/
theorem trailer_disagrees_ab :
    ¬ TrailerAgrees [(ascii "a", ascii "b")] []
      (blockOf [(ascii "a", ascii "b")]).finishDataBlock.data [] := by
  intro hagrees
  have hread := hagrees.restartNum
  revert hread
  decide +kernel

end Smallkv
