import Smallkv.Lib.Traced
import Smallkv.Table.ReadBack

/-!
# Table.IndexReload — the index loop of `Parse`

Each turn of the loop reads a length, that many bytes and an `OffsetInfo`, and
moves on by what it has read: that is the entry `IndexBlockBuilder::add` wrote
there (`readEntry`), so the loop ends where the entries end. What it reads it
reports in a copy of it (`parseIndexTraced`). Positions are `int`s. An index that ends at `2 ^ 31` or behind it has no end the loop could
reach (`index_end_wraps`).
-/

namespace Smallkv

open Fallible Traced

/-- Both fields have the values of an `int32_t`. -/
def OffsetInfo.IsInt32 (o : OffsetInfo) : Prop :=
  (-2 ^ 31 ≤ o.size ∧ o.size < 2 ^ 31) ∧ -2 ^ 31 ≤ o.offset ∧ o.offset < 2 ^ 31

instance (o : OffsetInfo) : Decidable o.IsInt32 := inferInstanceAs (Decidable (_ ∧ _))

namespace IndexBlockBuilder

/-- `add` for every entry, in order. -/
def addAll (b : IndexBlockBuilder) (index : List IndexBlock) : IndexBlockBuilder :=
  index.foldl (fun b e => b.add e.shortestKey e.offsetInfo) b

theorem addAll_data (b : IndexBlockBuilder) (index : List IndexBlock) :
    (b.addAll index).data = b.data ++ indexBytes index := by
  induction index generalizing b with
  | nil => simp [addAll, indexBytes]
  | cons e index ih =>
      have hrest := ih (b.add e.shortestKey e.offsetInfo)
      rw [addAll, List.foldl_cons, ← addAll, hrest]
      simp [add, indexBytes, indexEntry]

end IndexBlockBuilder

namespace SSTParser

/-- A range of the content, as position and length. -/
abbrev Range := ℤ × ℤ

def readInt32Traced (content : Bytes) (pos : ℤ) : Traced Range Fault ℤ := do
  report (pos, 4)
  lift (readInt32 content pos)

def readStringTraced (content : Bytes) (pos len : ℤ) : Traced Range Fault Bytes := do
  report (pos, len)
  lift (readString content pos len)

def readOffsetInfoTraced (content : Bytes) (pos : ℤ) : Traced Range Fault OffsetInfo := do
  report (pos, 8)
  lift (readOffsetInfo content pos)

/-- The index loop, with a report of every range that it reads. -/
def parseIndexTraced (content : Bytes) (stop : ℤ) :
    ℕ → ℤ → List IndexBlock → Traced Range Fault (List IndexBlock)
  | 0, _, _ => lift (.error .endless)
  | fuel + 1, start, blocks =>
    if start < stop then do
      let shortestKeySize ← readInt32Traced content start
      let shortestKey ← readStringTraced content (start + 4) shortestKeySize
      let offsetInfo ← readOffsetInfoTraced content (start + 4 + shortestKeySize)
      parseIndexTraced content stop fuel (asInt32 (start + (4 + shortestKeySize + 8)))
        (blocks ++ [⟨shortestKey, offsetInfo⟩])
    else do
      lift (require .assertion (start = stop))
      pure blocks

/-- Without its reports it is the loop. -/
theorem parseIndexTraced_result (content : Bytes) (stop : ℤ) (fuel : ℕ) (start : ℤ)
    (blocks : List IndexBlock) :
    (parseIndexTraced content stop fuel start blocks).result =
      parseIndex content stop fuel start blocks := by
  induction fuel generalizing start blocks with
  | zero => rfl
  | succ fuel ih =>
      rw [parseIndexTraced, parseIndex]
      split
      · simp only [readInt32Traced, readStringTraced, readOffsetInfoTraced, bind_result,
          report_result, lift_result, ok_bind, ih]
      · simp only [bind_result, lift_result, pure_result, pure_eq_ok]

/-- The loop over the range of `o` ends where the range ends, having read the
given entries and nothing outside of the range. -/
structure IndexReloaded (content : Bytes) (o : OffsetInfo) (index : List IndexBlock) : Prop where
  -- `parseIndex` asserts that it ends at its second argument
  loop : parseIndex content (asInt32 (o.offset + o.size)) (content.length + 1) o.offset [] =
    .ok index
  stop : asInt32 (o.offset + o.size) = o.offset + o.size
  reported : (parseIndexTraced content (asInt32 (o.offset + o.size)) (content.length + 1) o.offset
    []).result = parseIndex content (asInt32 (o.offset + o.size)) (content.length + 1) o.offset []
  inside : Reports (fun r => o.offset ≤ r.1 ∧ 0 ≤ r.2 ∧ r.1 + r.2 ≤ o.offset + o.size)
    (parseIndexTraced content (asInt32 (o.offset + o.size)) (content.length + 1) o.offset [])

/-! ## One entry -/

/-- Where an entry starts its three parts are read back. -/
theorem readEntry {e : IndexBlock} (hkey : e.shortestKey.length < 2 ^ 31)
    (hfields : e.offsetInfo.IsInt32) (a c : Bytes) :
    readInt32 (a ++ indexEntry e ++ c) a.length = .ok e.shortestKey.length ∧
      readString (a ++ indexEntry e ++ c) (a.length + 4) e.shortestKey.length =
        .ok e.shortestKey ∧
      readOffsetInfo (a ++ indexEntry e ++ c) (a.length + 4 + e.shortestKey.length) =
        .ok e.offsetInfo := by
  have hsize : asUInt32 e.shortestKey.length = e.shortestKey.length := by
    unfold asUInt32
    omega
  refine ⟨?_, ?_, ?_⟩
  · refine readInt32_at (a := a) (c := e.shortestKey ++ encodeOffsetInfo e.offsetInfo ++ c)
      (by omega) (by omega) ?_ rfl
    rw [hsize, indexEntry]
    simp
  · have hcontent : a ++ indexEntry e ++ c = (a ++ encodeFixed32 e.shortestKey.length) ++
        e.shortestKey ++ (encodeOffsetInfo e.offsetInfo ++ c) := by
      rw [indexEntry]
      simp
    rw [readString, require_of (Int.natCast_nonneg _), ok_bind, hcontent]
    refine slice_append ?_ rfl
    rw [List.length_append, length_encodeFixed32]
    push_cast
    rfl
  · have hcontent : a ++ indexEntry e ++ c =
        (a ++ encodeFixed32 e.shortestKey.length ++ e.shortestKey) ++
          encodeOffsetInfo e.offsetInfo ++ c := by
      rw [indexEntry]
      simp
    have hpos : (a.length + 4 + e.shortestKey.length : ℤ) =
        (a ++ encodeFixed32 e.shortestKey.length ++ e.shortestKey).length := by
      rw [List.length_append, List.length_append, length_encodeFixed32]
      push_cast
      rfl
    rw [hcontent, hpos]
    exact readOffsetInfo_append hfields.1 hfields.2 _ c

theorem indexBytes_cons (e : IndexBlock) (index : List IndexBlock) :
    indexBytes (e :: index) = indexEntry e ++ indexBytes index := List.flatMap_cons

/-- An entry takes twelve bytes or more. -/
theorem length_le_indexBytes (index : List IndexBlock) :
    12 * index.length ≤ (indexBytes index).length := by
  induction index with
  | nil => exact le_rfl
  | cons e index ih =>
      have hentry := indexEntry_length e
      rw [indexBytes_cons, List.length_append, List.length_cons]
      omega

/-! ## The loop -/

/-- From the start of an entry on, the loop reads this entry and the ones behind
it, and no byte behind these. -/
theorem parseIndex_spec {index : List IndexBlock} (hfields : ∀ e ∈ index, e.offsetInfo.IsInt32)
    {content a c : Bytes} (hcontent : content = a ++ indexBytes index ++ c)
    (hlen : a.length + (indexBytes index).length < 2 ^ 31) {stop : ℤ}
    (hstop : stop = a.length + (indexBytes index).length) {fuel : ℕ}
    (hfuel : index.length < fuel) (blocks : List IndexBlock) :
    parseIndex content stop fuel a.length blocks = .ok (blocks ++ index) ∧
      Reports (fun r => (a.length : ℤ) ≤ r.1 ∧ 0 ≤ r.2 ∧ r.1 + r.2 ≤ stop)
        (parseIndexTraced content stop fuel a.length blocks) := by
  induction index generalizing a fuel blocks with
  | nil =>
      obtain ⟨fuel, rfl⟩ : ∃ n, fuel = n + 1 := ⟨fuel - 1, by omega⟩
      have hend : (a.length : ℤ) = stop := by simp [hstop, indexBytes]
      constructor
      · simp [parseIndex, hend, require]
      · rw [parseIndexTraced, if_neg hend.not_lt]
        exact (Reports.lift _ _).bind fun _ _ => .pure _ _
  | cons e index ih =>
      obtain ⟨fuel, rfl⟩ : ∃ n, fuel = n + 1 := ⟨fuel - 1, by omega⟩
      have hentry := indexEntry_length e
      rw [indexBytes_cons, List.length_append] at hlen hstop
      rw [indexBytes_cons] at hcontent
      have hlt : (a.length : ℤ) < stop := by omega
      have hsplit : content = a ++ indexEntry e ++ (indexBytes index ++ c) := by
        rw [hcontent]
        simp
      rcases readEntry (by omega) (hfields e (by simp)) a (indexBytes index ++ c) with
        ⟨hsize, hkey, hoffset⟩
      rw [← hsplit] at hsize hkey hoffset
      -- the next turn starts behind the entry
      have hnext : asInt32 (a.length + (4 + e.shortestKey.length + 8)) =
          (a ++ indexEntry e).length := by
        rw [asInt32_of_lt (by omega) (by omega), List.length_append, hentry]
        push_cast
        ring
      have hcontent' : content = (a ++ indexEntry e) ++ indexBytes index ++ c := by
        rw [hcontent]
        simp
      have hlen' : (a ++ indexEntry e).length + (indexBytes index).length < 2 ^ 31 := by
        rw [List.length_append]
        omega
      have hstop' : stop = (a ++ indexEntry e).length + (indexBytes index).length := by
        rw [hstop, List.length_append]
        push_cast
        ring
      rcases ih (fun e' he' => hfields e' (by simp [he'])) hcontent' hlen' hstop'
        (Nat.lt_of_succ_lt_succ hfuel) (blocks ++ [⟨e.shortestKey, e.offsetInfo⟩]) with
        ⟨hloop, hreads⟩
      constructor
      · rw [parseIndex, if_pos hlt]
        simp only [hsize, hkey, hoffset, ok_bind, hnext, hloop]
        simp
      · rw [parseIndexTraced, if_pos hlt]
        refine Reports.bind (Reports.bind (Reports.report ?_) fun _ _ => .lift _ _) ?_
        · simp only
          omega
        intro size hsize'
        obtain rfl : e.shortestKey.length = size := by
          simpa [readInt32Traced, hsize] using hsize'
        refine Reports.bind (Reports.bind (Reports.report ?_) fun _ _ => .lift _ _) ?_
        · simp only
          omega
        intro key hkey'
        obtain rfl : e.shortestKey = key := by
          simpa [readStringTraced, hkey] using hkey'
        refine Reports.bind (Reports.bind (Reports.report ?_) fun _ _ => .lift _ _) ?_
        · simp only
          omega
        intro o ho
        obtain rfl : e.offsetInfo = o := by
          simpa [readOffsetInfoTraced, hoffset] using ho
        rw [hnext]
        intro r hr
        have hin := hreads r hr
        rw [List.length_append] at hin
        omega

/-- A loop that is not entered has to be at its end. -/
theorem parseIndex_skipped {content : Bytes} {stop start : ℤ} {fuel : ℕ}
    {blocks index : List IndexBlock} (hskip : ¬ start < stop)
    (hrun : parseIndex content stop (fuel + 1) start blocks = .ok index) : start = stop := by
  rw [parseIndex, if_neg hskip] at hrun
  rcases bind_eq_ok.1 hrun with ⟨_, hassert, -⟩
  exact require_eq_ok.1 hassert

end SSTParser

open SSTParser

/-- A file with an index in it, and a footer that says where. -/
def fileWithIndex (a : Bytes) (index : List IndexBlock) (c : Bytes) : Bytes :=
  let data := ((⟨[]⟩ : IndexBlockBuilder).addAll index).data
  a ++ data ++ c ++ encodeOffsetInfo ⟨data.length, a.length⟩

theorem fileWithIndex_eq (a : Bytes) (index : List IndexBlock) (c : Bytes) :
    fileWithIndex a index c = a ++ indexBytes index ++ c ++
      encodeOffsetInfo ⟨(indexBytes index).length, a.length⟩ := by
  simp only [fileWithIndex, IndexBlockBuilder.addAll_data, List.nil_append]

/-- The footer is read where `Parse` looks for it. -/
theorem readFooter {a : Bytes} {index : List IndexBlock} (ha : a.length < 2 ^ 31)
    (hindex : (indexBytes index).length < 2 ^ 31) (c : Bytes) :
    readOffsetInfo (fileWithIndex a index c) ((fileWithIndex a index c).length - 8) =
      .ok ⟨(indexBytes index).length, a.length⟩ := by
  rw [fileWithIndex_eq]
  refine readOffsetInfo_at (c := []) hindex ha (List.append_nil _).symm ?_
  simp only [List.length_append, length_encodeOffsetInfo]
  push_cast
  ring

/-- Index parsing undoes index writing wherever the index ends below `2 ^ 31`. -/
theorem index_reloaded (index : List IndexBlock) (hfields : ∀ e ∈ index, e.offsetInfo.IsInt32)
    (a c : Bytes) (hend : a.length + (indexBytes index).length < 2 ^ 31) :
    ∃ o, readOffsetInfo (fileWithIndex a index c) ((fileWithIndex a index c).length - 8) = .ok o ∧
      o.offset = a.length ∧ o.size = (indexBytes index).length ∧
      IndexReloaded (fileWithIndex a index c) o index := by
  have hcontent : fileWithIndex a index c = a ++ indexBytes index ++
      (c ++ encodeOffsetInfo ⟨(indexBytes index).length, a.length⟩) := by
    rw [fileWithIndex_eq, List.append_assoc (a ++ indexBytes index)]
  have hstop : asInt32 (a.length + (indexBytes index).length) =
      a.length + (indexBytes index).length := asInt32_of_lt (by omega) (by omega)
  have hfuel : index.length < (fileWithIndex a index c).length + 1 := by
    have hle := length_le_indexBytes index
    rw [hcontent, List.length_append, List.length_append]
    omega
  rcases parseIndex_spec hfields hcontent hend rfl hfuel [] with ⟨hloop, hreads⟩
  refine ⟨_, readFooter (by omega) (by omega) c, rfl, rfl, ?_, hstop,
    parseIndexTraced_result _ _ _ _ _, ?_⟩
  · rw [hstop, hloop, List.nil_append]
  · simp only [hstop]
    exact hreads

/-- Two entries behind three bytes. -/
theorem index_reloaded_two :
    ∃ o, readOffsetInfo (fileWithIndex [1, 2, 3] [⟨ascii "key_0", ⟨1, 2⟩⟩, ⟨[], ⟨-1, 7⟩⟩] [9])
        ((fileWithIndex [1, 2, 3] [⟨ascii "key_0", ⟨1, 2⟩⟩, ⟨[], ⟨-1, 7⟩⟩] [9]).length - 8) =
          .ok o ∧ o.offset = 3 ∧ o.size = 29 ∧
      IndexReloaded (fileWithIndex [1, 2, 3] [⟨ascii "key_0", ⟨1, 2⟩⟩, ⟨[], ⟨-1, 7⟩⟩] [9]) o
        [⟨ascii "key_0", ⟨1, 2⟩⟩, ⟨[], ⟨-1, 7⟩⟩] :=
  index_reloaded [⟨ascii "key_0", ⟨1, 2⟩⟩, ⟨[], ⟨-1, 7⟩⟩] (by decide) [1, 2, 3] [9] (by decide)

/-- An entry that starts at the last `int` has no end: `START + SIZE` is
negative, the loop is skipped and the assertion behind it fails. -/
theorem index_end_wraps : ∃ a index c, (indexBytes index).length < 2 ^ 31 ∧
    (∀ e ∈ index, e.offsetInfo.IsInt32) ∧
    ∃ o, readOffsetInfo (fileWithIndex a index c) ((fileWithIndex a index c).length - 8) = .ok o ∧
      o.offset = a.length ∧ o.size = (indexBytes index).length ∧
      ¬ IndexReloaded (fileWithIndex a index c) o index := by
  have ha : (List.replicate (2 ^ 31 - 1) (0 : Byte)).length = 2 ^ 31 - 1 := List.length_replicate
  have hindex : (indexBytes [⟨ascii "k", ⟨0, 0⟩⟩]).length = 13 := by decide
  refine ⟨List.replicate (2 ^ 31 - 1) 0, [⟨ascii "k", ⟨0, 0⟩⟩], [], by rw [hindex]; norm_num,
    by decide, _, readFooter (by rw [ha]; norm_num) (by rw [hindex]; norm_num) [], rfl, rfl, ?_⟩
  intro h
  have hwrap : asInt32 ((List.replicate (2 ^ 31 - 1) (0 : Byte)).length +
      (indexBytes [⟨ascii "k", ⟨0, 0⟩⟩]).length) = -2147483636 := by
    rw [ha, hindex]
    decide
  have hend := parseIndex_skipped (by rw [hwrap, ha]; decide) h.loop
  rw [hwrap, ha] at hend
  exact absurd hend (by decide)

end Smallkv
