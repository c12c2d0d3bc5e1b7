import Smallkv.DB.FlushLog
import Smallkv.MemTable.Flush
import Smallkv.Table.Building

/-!
# DB.FlushComplete — what a flush keeps

A flush walks the memtable and feeds a builder that was made for `GetSize()` keys.
The memtable keeps a pair under the empty key like any other, but the builder takes
in no such pair (`withKey`): it is not in the table, and the flush succeeds all the
same. Without it, the data blocks hold the pairs of the memtable, tombstones and
all, as soon as the builder gets to its end.
-/

namespace Smallkv

open Fallible Assoc PrefixCode

/-! ## Pairs without a key -/

/-- The pairs that a builder takes in. -/
def withKey (entries : List (Bytes × Bytes)) : List (Bytes × Bytes) :=
  entries.filter fun entry => entry.1 ≠ []

theorem withKey_keys (entries : List (Bytes × Bytes)) : ∀ entry ∈ withKey entries, entry.1 ≠ [] := by
  intro entry hentry
  simpa using (List.mem_filter.1 hentry).2

theorem withKey_eq_self {entries : List (Bytes × Bytes)} (hkeys : ∀ entry ∈ entries, entry.1 ≠ []) :
    withKey entries = entries := by
  refine List.filter_eq_self.2 ?_
  intro entry hentry
  simpa using hkeys entry hentry

theorem withKey_concat (entries : List (Bytes × Bytes)) (entry : Bytes × Bytes) :
    withKey (entries ++ [entry]) =
      if entry.1 = [] then withKey entries else withKey entries ++ [entry] := by
  rw [withKey, List.filter_append, ← withKey]
  by_cases hkey : entry.1 = []
  · simp [hkey]
  · simp [hkey]

theorem toMap_withKey (entries : List (Bytes × Bytes)) (key : Bytes) :
    toMap (withKey entries) key = if key = [] then none else toMap entries key := by
  induction entries with
  | nil => simp [withKey]
  | cons entry entries ih =>
      rcases entry with ⟨k, v⟩
      by_cases hk : k = []
      · have hskip : withKey ((k, v) :: entries) = withKey entries := by simp [withKey, hk]
        rw [hskip, ih, toMap_cons, hk]
        split
        · rfl
        · rfl
      · have hkeep : withKey ((k, v) :: entries) = (k, v) :: withKey entries := by
          simp [withKey, hk]
        rw [hkeep, toMap_cons, toMap_cons, ih]
        by_cases hkey : key = k
        · rw [if_pos hkey, if_pos hkey, if_neg fun hnil => hk (hkey ▸ hnil)]
        · rw [if_neg hkey, if_neg hkey]

/-- Leaving a key out of every map leaves it out of their overlay. -/
theorem overlay_withKey (tables : List (List (Bytes × Bytes))) (key : Bytes) :
    overlay (tables.map fun entries => toMap (withKey entries)) key =
      if key = [] then none else overlay (tables.map toMap) key := by
  induction tables with
  | nil => simp
  | cons entries tables ih =>
      rw [List.map_cons, List.map_cons, overlay_cons, overlay_cons, ih, toMap_withKey]
      split
      · rfl
      · rfl

/-- The builder of a block skips the others. -/
theorem blockOf_withKey (entries : List (Bytes × Bytes)) :
    blockOf (withKey entries) = blockOf entries := by
  induction entries using List.reverseRecOn with
  | nil => rfl
  | append_singleton entries entry ih =>
      rw [withKey_concat, blockOf_concat]
      split
      · rename_i hkey
        rw [DataBlockBuilder.add, if_pos hkey, ih]
      · rw [blockOf_concat, ih]

/-- And so does the builder of a table. -/
theorem addAll_withKey (b : SSTableBuilder) (entries : List (Bytes × Bytes)) :
    b.addAll (withKey entries) = b.addAll entries := by
  induction entries using List.reverseRecOn with
  | nil => rfl
  | append_singleton entries entry ih =>
      unfold SSTableBuilder.addAll at ih ⊢
      rw [withKey_concat, run_append, ← ih]
      split
      · rename_i hkey
        cases hrun : run (fun b entry => SSTableBuilder.add b entry.1 entry.2) b (withKey entries) with
        | error e => rfl
        | ok b' => simp [SSTableBuilder.add, hkey]
      · rw [run_append]

theorem build_withKey (fm : FloatMath) (keysNum : ℤ) (entries : List (Bytes × Bytes)) :
    SSTableBuilder.build fm keysNum (withKey entries) =
      SSTableBuilder.build fm keysNum entries := by
  simp only [SSTableBuilder.build, addAll_withKey]

/-! ## Records in the data blocks -/

/-- At the front of the file, up to where the footer has the filter, there are data
blocks, and their record sections are these pairs, block by block. -/
structure HoldsRecords (file : Bytes) (parts : List (List (Bytes × Bytes))) : Prop where
  front : ∃ rest, file = blocksBytes parts ++ rest
  filter : ∃ size, readOffsetInfo file (file.length - 16) =
    .ok ⟨size, asInt32 (blocksBytes parts).length⟩
  decoded : ∀ part ∈ parts, part ≠ [] ∧ decodeRecords (blockOf part).data = some part

/-- The record section of a block is read back as the pairs that have a key. -/
theorem decodeRecords_blockOf {part : List (Bytes × Bytes)}
    (hlen : ∀ entry ∈ part, entry.1.length + entry.2.length < 2 ^ 31) :
    decodeRecords (blockOf part).data = some (withKey part) := by
  rw [← blockOf_withKey, (blockFields (withKey_keys part)).data]
  apply decodeRecords_writeRecords
  intro entry hentry
  have hsmall := hlen entry (List.mem_filter.1 hentry).1
  constructor
  · omega
  · omega

/-- No pair without a key is in a data block. -/
theorem HoldsRecords.keys {file : Bytes} {parts : List (List (Bytes × Bytes))}
    (h : HoldsRecords file parts)
    (hlen : ∀ entry ∈ parts.flatten, entry.1.length + entry.2.length < 2 ^ 31) :
    ∀ entry ∈ parts.flatten, entry.1 ≠ [] := by
  intro entry hentry
  rcases List.mem_flatten.1 hentry with ⟨part, hpart, hmem⟩
  have hdecode := (h.decoded part hpart).2
  rw [decodeRecords_blockOf fun e he => hlen e (List.mem_flatten.2 ⟨part, hpart, he⟩),
    Option.some.injEq] at hdecode
  rw [← hdecode] at hmem
  exact withKey_keys part entry hmem

/-- A build that gets to its end puts all its pairs into data blocks. -/
theorem build_holdsRecords {fm : FloatMath} {keysNum : ℤ} {entries : List (Bytes × Bytes)}
    (hkeys : ∀ entry ∈ entries, entry.1 ≠ [])
    (hlen : ∀ entry ∈ entries, entry.1.length + entry.2.length < 2 ^ 31) {file : Bytes}
    (hrun : SSTableBuilder.build fm keysNum entries = .ok file) :
    ∃ parts, HoldsRecords file parts ∧ parts.flatten = entries := by
  rcases SSTableBuilder.build_cases hrun with ⟨b₀, b, b', hnew, hadd, hfinish, rfl⟩
  rcases SSTableBuilder.new_layoutInv hnew with ⟨f, -, hb₀⟩
  rcases SSTableBuilder.addAll_layoutInv hb₀ hkeys hadd with ⟨_, _, _, hb⟩
  rcases bind_eq_ok.1 hfinish with ⟨b₁, hblocks, hmeta⟩
  rcases SSTableBuilder.finishBlocks_layout hb hblocks with
    ⟨blocks, index, hfile, hflatten, hnonempty, hwhole, -⟩
  rcases hfile.finishMeta_file hmeta with ⟨filter, footer, metaBlock, -, hparts, hread, hend⟩
  rw [hwhole hlen] at hparts
  refine ⟨blocks, ?_, hflatten⟩
  constructor
  case front => exact ⟨filter ++ appended (indexBytes index) ++ footer, by rw [hparts]; simp⟩
  case filter =>
    refine ⟨metaBlock.size, ?_⟩
    rw [hread, ← hwhole hlen, ← hfile.offset, ← hend]
  case decoded =>
    intro part hpart
    have hmem : ∀ entry ∈ part, entry ∈ entries := by
      intro entry hentry
      rw [← hflatten]
      exact List.mem_flatten.2 ⟨part, hpart, hentry⟩
    refine ⟨hnonempty part hpart, ?_⟩
    rw [decodeRecords_blockOf fun entry hentry => hlen entry (hmem entry hentry),
      withKey_eq_self fun entry hentry => hkeys entry (hmem entry hentry)]

/-! ## Complete flushes -/

/-- The flush of a memtable succeeds, and its data blocks hold these pairs, in this
order. -/
def FlushComplete (fm : FloatMath) (t : MemTable) (entries : List (Bytes × Bytes)) : Prop :=
  ∃ file parts, t.sstFile fm = .ok file ∧ HoldsRecords file parts ∧ parts.flatten = entries

/-- There is a key in every pair, and the number of pairs, the blocks and the index
have a size. -/
structure Flushable (entries : List (Bytes × Bytes)) : Prop where
  keys : ∀ entry ∈ entries, entry.1 ≠ []
  number : 0 < asInt32 entries.length
  blocks : CutsFit entries
  index : 0 < asInt32 (indexSize entries)

namespace MemTable

/-- A memtable that stands for a map is flushed completely exactly if its pairs have
keys and sizes. -/
theorem Represents.flushed_iff {t : MemTable} {m : Bytes → Option Bytes}
    (h : Represents t m) {entries : List (Bytes × Bytes)} (hentries : t.entries = .ok entries)
    {fm : FloatMath} (hfm : fm.InRange t.getSize)
    (hlen : ∀ entry ∈ entries, entry.1.length + entry.2.length < 2 ^ 31)
    (hcuts : SeparatesInOrder (withKey entries)) :
    FlushComplete fm t entries ↔ Flushable entries := by
  rcases h.entries with ⟨l, hl, hsorted, -, hsize, -⟩
  obtain rfl : entries = l := Except.ok.inj (hentries.symm.trans hl)
  have hfile := sstFile_eq_build fm hentries
  constructor
  · rintro ⟨file, parts, hrun, hholds, rfl⟩
    have hkeys := hholds.keys hlen
    rw [hfile] at hrun
    rcases (finishes_iff hkeys hsorted hfm (FileWriter.openFile []) hlen).1
      (build_ok_iff.1 ⟨file, hrun⟩) with ⟨hnum, -, hfit, hindex⟩
    rw [hsize] at hnum
    exact ⟨hkeys, hnum, hfit, hindex⟩
  · rintro ⟨hkeys, hnum, hfit, hindex⟩
    rw [withKey_eq_self hkeys] at hcuts
    rw [← hsize] at hnum
    rcases build_ok_iff.2 ((finishes_iff hkeys hsorted hfm (FileWriter.openFile []) hlen).2
      ⟨hnum, hcuts, hfit, hindex⟩) with ⟨file, hrun⟩
    rcases build_holdsRecords hkeys hlen hrun with ⟨parts, hholds, hflatten⟩
    exact ⟨file, parts, by rw [hfile, hrun], hholds, hflatten⟩

end MemTable

/-! ## Reachable memtables -/

namespace DBImpl

/-- A memtable that calls of a client lead to: that of the database behind them, or
the one that a write has made behind them before it flushes. -/
def MemTableReached (host : Host) (sst : SstFormat) (options : Options) (disk : Disk)
    (t : MemTable) : Prop :=
  ∃ ops db, run (step host sst) (openDB options disk) ops = .ok db ∧
    (t = db.memTable ∨ ∃ w db₁, run (execStage host sst) db (Write.steps w) = .ok db₁ ∧
      t = db₁.memTable)

theorem MemTableReached.represents {host : Host} {sst : SstFormat} {options : Options}
    {disk : Disk} {t : MemTable} (h : MemTableReached host sst options disk t) :
    ∃ mem, t.Represents mem := by
  rcases h with ⟨ops, db, hrun, rfl | ⟨w, db₁, hsteps, rfl⟩⟩
  · rcases run_flushLog hrun with ⟨-, -, mem, cached, htracks⟩
    exact ⟨mem, htracks.memTable⟩
  · rcases run_flushLog hrun with ⟨-, -, mem, cached, htracks⟩
    rcases steps_ok htracks hsteps with ⟨cached₁, -, htracks₁, -⟩
    exact ⟨_, htracks₁.memTable⟩

end DBImpl

open DBImpl

end Smallkv
