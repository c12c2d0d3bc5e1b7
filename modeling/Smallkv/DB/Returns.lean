import Smallkv.DB.Batches
import Smallkv.DB.FlushComplete
import Smallkv.DB.Misses

/-!
# DB.Returns — which calls return

A call that does not return has aborted the process. With strings and a memtable
of an ordinary size, two things make that happen and no other: a `Get` of a key
that is neither in the cache nor in the memtable, and a flush of pairs whose least
key has no room in a data block. Both can be told from what the clients called
(`run_returns_iff`).
-/

namespace Smallkv

open Fallible Assoc SkipList

/-! ## Tables of ordinary size -/

/-- There is a key, and the record of the least one fits into a data block. The
empty key does not count. -/
def OpensBlock (pairs : List (Bytes × Bytes)) : Prop :=
  ∃ p ∈ withKey pairs, (∀ q ∈ withKey pairs, p.1 ≤ q.1) ∧
    12 + p.1.length + p.2.length ≤ kMaxDataBlockSize

instance (pairs : List (Bytes × Bytes)) : Decidable (OpensBlock pairs) :=
  inferInstanceAs (Decidable (∃ _ ∈ _, _))

section Tables

variable {entries pairs : List (Bytes × Bytes)}

theorem OpensBlock.perm (h : OpensBlock entries) (hperm : entries.Perm pairs) : OpensBlock pairs := by
  have hmem : ∀ p, p ∈ withKey entries ↔ p ∈ withKey pairs := fun p => (hperm.filter _).mem_iff
  rcases h with ⟨p, hp, hleast, hfits⟩
  exact ⟨p, (hmem p).1 hp, fun q hq => hleast q ((hmem q).2 hq), hfits⟩

theorem opensBlock_perm (hperm : entries.Perm pairs) : OpensBlock entries ↔ OpensBlock pairs :=
  ⟨fun h => h.perm hperm, fun h => h.perm hperm.symm⟩

/-- In key order the least key comes first. -/
theorem opensBlock_iff_head (hsorted : entries.Pairwise fun a b => a.1 < b.1) :
    OpensBlock entries ↔ withKey entries ≠ [] ∧
      ∀ e ∈ (withKey entries).head?, 12 + e.1.length + e.2.length ≤ kMaxDataBlockSize := by
  have hsorted' : (withKey entries).Pairwise fun a b => a.1 < b.1 :=
    hsorted.sublist List.filter_sublist
  unfold OpensBlock
  cases hkeyed : withKey entries with
  | nil => simp
  | cons e rest =>
      rw [hkeyed] at hsorted'
      have hfirst := (List.pairwise_cons.1 hsorted').1
      constructor
      · rintro ⟨p, hp, hleast, hfits⟩
        refine ⟨List.cons_ne_nil _ _, ?_⟩
        rintro _ ⟨⟩
        rcases List.mem_cons.1 hp with rfl | hp
        · exact hfits
        · exact absurd (hleast e List.mem_cons_self) (not_le.2 (hfirst p hp))
      · rintro ⟨-, hfits⟩
        refine ⟨e, List.mem_cons_self, ?_, hfits e rfl⟩
        intro q hq
        rcases List.mem_cons.1 hq with rfl | hq
        · exact le_rfl
        · exact (hfirst q hq).le

/-- The pairs without a key weigh nothing less. -/
theorem totalBytes_withKey_le (entries : List (Bytes × Bytes)) :
    totalBytes (withKey entries) ≤ totalBytes entries :=
  List.Sublist.sum_le_sum (List.filter_sublist.map _) fun _ _ => Nat.zero_le _

/-- Different keys take a byte each, but for the empty one. -/
theorem length_le_totalBytes (hnodup : (entries.map Prod.fst).Nodup) :
    entries.length ≤ totalBytes entries + 1 := by
  induction entries with
  | nil => exact Nat.zero_le _
  | cons e entries ih =>
      rw [List.map_cons, List.nodup_cons] at hnodup
      have hrest := ih hnodup.2
      rw [totalBytes, List.map_cons, List.sum_cons, ← totalBytes, List.length_cons]
      by_cases hkey : e.1 = []
      · -- all others have a key
        have hothers : ∀ p ∈ entries, p.1 ≠ [] := by
          intro p hp hnil
          exact hnodup.1 (List.mem_map.2 ⟨p, hp, by rw [hnil, hkey]⟩)
        have hbytes : entries.length ≤ totalBytes entries := by
          rw [totalBytes, ← List.length_map fun p : Bytes × Bytes => p.1.length + p.2.length]
          refine List.length_le_sum_of_one_le _ ?_
          intro n hn
          rcases List.mem_map.1 hn with ⟨p, hp, rfl⟩
          have hpos := List.length_pos_of_ne_nil (hothers p hp)
          omega
        omega
      · have hpos := List.length_pos_of_ne_nil hkey
        omega

/-- Below 1 GiB no block outgrows an `int32_t`. -/
theorem cutsFit_of_small (hkeys : ∀ e ∈ entries, e.1 ≠ []) (htotal : totalBytes entries < 2 ^ 30) :
    CutsFit entries := by
  intro es entry hpre hcut
  have hentry : entry ∈ entries := hpre.subset (by simp)
  have hfront : ∀ e ∈ es, e.1 ≠ [] := fun e he => hkeys e (hpre.subset (by simp [he]))
  have hspec := openBlock_spec hfront
  have hsmall := openBlock_small es
  have hspec' := SSTableBuilder.blockSpec_concat hspec hsmall (openBlock_keys hfront)
    (hkeys entry hentry)
  have hfew := length_le_of_size hspec hsmall
  have htrailer := trailer_length hspec'
  have hrecord := (writeRecord_length
    (PrefixCode.nextAll RecordState.next RecordState.start (openBlock es)) entry).2
  have hbytes := le_totalBytes hentry
  rw [DataBlockBuilder.size, hspec.data, kMaxDataBlockSize] at hsmall
  simp only [DataBlockBuilder.finishDataBlock, List.length_append, hspec'.data, writeRecords,
    PrefixCode.encodeAll_concat] at htrailer ⊢
  rw [← writeRecords]
  simp only [List.length_singleton] at htrailer
  omega

theorem indexSize_small (hkeys : ∀ e ∈ entries, e.1 ≠ []) (htotal : totalBytes entries < 2 ^ 30) :
    indexSize entries < 2 ^ 31 := by
  have hcuts := cutsSize_le hkeys
  rw [indexSize]
  split
  · omega
  · omega

/-- So a table of ordinary size is built exactly if its least key has room in the
first data block. -/
theorem build_returns_iff {fm : FloatMath} (hsorted : entries.Pairwise fun a b => a.1 < b.1)
    (htotal : totalBytes entries < 2 ^ 30) (hne : entries ≠ [])
    (hfm : fm.InRange (asInt32 entries.length)) :
    (∃ file, SSTableBuilder.build fm (asInt32 entries.length) entries = .ok file) ↔
      OpensBlock entries := by
  have hkeys := withKey_keys entries
  have hsorted' : (withKey entries).Pairwise fun a b => a.1 < b.1 :=
    hsorted.sublist List.filter_sublist
  have htotal' : totalBytes (withKey entries) < 2 ^ 30 :=
    lt_of_le_of_lt (totalBytes_withKey_le entries) htotal
  have hlen : ∀ e ∈ withKey entries, e.1.length + e.2.length < 2 ^ 31 := by
    intro e he
    have hle := le_totalBytes he
    omega
  have hnumber : 0 < asInt32 entries.length := by
    have hpos := List.length_pos_of_ne_nil hne
    have hfew := length_le_totalBytes (nodup_keys_of_sorted hsorted)
    rw [asInt32_of_lt (by omega) (by omega)]
    omega
  rw [← build_withKey, build_ok_iff, finishes_iff hkeys hsorted' hfm _ hlen,
    separatesInOrder_iff hkeys hsorted', opensBlock_iff_head hsorted]
  have hindex : 0 < asInt32 (indexSize (withKey entries)) ↔ withKey entries ≠ [] := by
    constructor
    · intro h hnil
      rw [hnil] at h
      exact absurd h (by decide)
    · intro hkeyed
      have hpos := indexSize_pos hkeyed
      have hsmall := indexSize_small hkeys htotal'
      rw [asInt32_of_lt (by omega) (by omega)]
      omega
  rw [hindex]
  constructor
  · rintro ⟨-, hfirst, -, hkeyed⟩
    exact ⟨hkeyed, hfirst⟩
  · rintro ⟨hkeyed, hfirst⟩
    exact ⟨hnumber, hfirst, cutsFit_of_small hkeys htotal', hkeyed⟩

end Tables

namespace DBImpl

/-! ## Flushes -/

section Flushes

variable {host : Host} {fm : FloatMath} {db : DBImpl} {held : List (Bytes × Bytes)}
  {cached : Bytes → Option Bytes}

theorem openForAppend_progress {options : Options} (files : FileId → Option Bytes) (cwd : FileId)
    (hdir : options.storageDir ≠ []) (number : UInt32) :
    ∃ content, openForAppend files cwd (writePath options number) = .ok content := by
  unfold openForAppend
  split
  · exact ⟨_, rfl⟩
  · have hpath : dirPath (writePath options number) ≠ [] := by
      rwa [writePath, dirPath_child _ (buildSSTPath_part 0 _).1]
    exact ⟨[], by rw [require_of hpath, ok_bind, pure_eq_ok]⟩

theorem memTableToSST_returns_iff (h : Tracks host db (toMap held) cached)
    (hnodup : (held.map Prod.fst).Nodup) (hdir : db.options.storageDir ≠ []) (hne : held ≠ [])
    (hsmall : bytesOf held < 2 ^ 30) (hfm : fm.InRange (asInt32 held.length)) :
    (∃ db', db.memTableToSST host (sstFormat fm) = .ok db') ↔ OpensBlock held := by
  rcases h.memTable.entries with ⟨entries, hentries, hsorted, hmap, hsize, -⟩
  have hperm : entries.Perm held := perm_of_toMap_eq (nodup_keys_of_sorted hsorted) hnodup hmap
  have hne' : entries ≠ [] := by
    rintro rfl
    exact hne hperm.nil_eq.symm
  have hbuild := build_returns_iff hsorted (by rwa [bytesOf_perm hperm.symm] at hsmall) hne'
    (by rwa [hperm.length_eq])
  rw [← opensBlock_perm hperm, ← hbuild, ← hsize]
  rcases openForAppend_progress db.files host.cwd hdir db.options.lisstNum with ⟨content, hcontent⟩
  constructor
  · rintro ⟨db', hrun⟩
    rw [memTableToSST, hcontent, ok_bind, hentries, ok_bind] at hrun
    rcases bind_eq_ok.1 hrun with ⟨bytes, hbytes, -⟩
    exact ⟨bytes, hbytes⟩
  · rintro ⟨bytes, hbytes⟩
    have hbytes' : (sstFormat fm).build db.memTable.getSize entries = .ok bytes := hbytes
    exact ⟨_, by rw [memTableToSST, hcontent, ok_bind, hentries, ok_bind, hbytes', ok_bind,
      pure_eq_ok]⟩

theorem flushIfFull_returns_iff {max : ℕ} (h : Tracks host db (toMap held) cached)
    (hnodup : (held.map Prod.fst).Nodup) (hdir : db.options.storageDir ≠ []) (hne : held ≠ [])
    (hsmall : bytesOf held < 2 ^ 30) (hfm : fm.InRange (asInt32 held.length))
    (hfull : db.Full ↔ max ≤ bytesOf held) :
    (∃ db', db.flushIfFull host (sstFormat fm) = .ok db') ↔
      (max ≤ bytesOf held → OpensBlock held) := by
  have hflush := memTableToSST_returns_iff h hnodup hdir hne hsmall hfm
  rw [← hfull, ← hflush]
  unfold flushIfFull
  split
  · rename_i hyes
    constructor
    · rintro ⟨db', hrun⟩ -
      rcases bind_eq_ok.1 hrun with ⟨db₁, hrun₁, -⟩
      exact ⟨db₁, hrun₁⟩
    · intro hruns
      rcases hruns hyes with ⟨db₁, hrun₁⟩
      exact ⟨_, by rw [hrun₁, ok_bind, pure_eq_ok]⟩
  · rename_i hnot
    exact iff_of_true ⟨db, rfl⟩ fun hyes => absurd hyes hnot

end Flushes

/-! ## Runs -/

/-- The strings of all writes, and a memtable at its limit with one pair more, are of
an ordinary size, for which the filters can be sized, too; and the storage directory
has a name. -/
structure Ordinary (fm : FloatMath) (options : Options) (most : ℕ) (ops : List Op) : Prop where
  directory : options.storageDir ≠ []
  most_lt : most < 2 ^ 30
  keys : ∀ w ∈ writes ops, w.key.length < 2 ^ 24
  pairs : ∀ w ∈ writes ops, options.memTableMaxSize + (w.key.length + w.value.length) ≤ most
  filters : ∀ n : ℕ, 0 < n → n ≤ most + 1 → fm.InRange n

section Runs

variable {host : Host} {fm : FloatMath} {options : Options} {disk : Disk} {most : ℕ}
  {ops pre : List Op} {w : Write}

theorem write_bytes_le (w : Write) : w.bytes ≤ w.key.length + w.value.length := by
  have hkey : (cString w.key).length ≤ w.key.length := (List.takeWhile_prefix _).length_le
  have hvalue : (cString w.value).length ≤ w.value.length := (List.takeWhile_prefix _).length_le
  rw [Write.bytes]
  omega

theorem Ordinary.sizesFit (h : Ordinary fm options most ops) :
    SizesFit options.memTableMaxSize ops := by
  refine sizesFit_of_writes ?_
  intro w hw
  have hbytes := write_bytes_le w
  have hpair := h.pairs w hw
  have hmost := h.most_lt
  omega

/-- What the flush test weighs is at most the limit and one pair. -/
theorem Ordinary.weighed_le (h : Ordinary fm options most ops) (hpre : pre ++ [.write w] <+: ops) :
    bytesOf (weighed options.memTableMaxSize pre w) ≤ most := by
  have hbytes := write_bytes_le w
  have hpair := h.pairs w (mem_writes_of_called hpre)
  have hadded := bytesOf_heldAfter_le (unflushed options.memTableMaxSize pre) w
  have hheld := bytesOf_unflushed_le options.memTableMaxSize pre
  rw [weighed]
  omega

/-- The numbers of keys that the filters are made for are among those in range. -/
theorem Ordinary.inRange (h : Ordinary fm options most ops) {held : List (Bytes × Bytes)}
    (hnodup : (held.map Prod.fst).Nodup) (hne : held ≠ []) (hle : bytesOf held ≤ most) :
    fm.InRange (asInt32 held.length) := by
  have hfew : held.length ≤ bytesOf held + 1 := length_le_totalBytes hnodup
  have hmost := h.most_lt
  rw [asInt32_of_lt (by omega) (by omega)]
  exact h.filters held.length (List.length_pos_of_ne_nil hne) (by omega)

/-- A write that leads to no flush returns, and one that does if the table opens. -/
theorem Ordinary.write_returns_iff (h : Ordinary fm options most ops)
    (hpre : pre ++ [.write w] <+: ops) {db : DBImpl}
    (hrun : run (step host (sstFormat fm)) (openDB options disk) pre = .ok db) :
    (∃ db', db.write host (sstFormat fm) w = .ok db') ↔
      (options.memTableMaxSize ≤ bytesOf (weighed options.memTableMaxSize pre w) →
        OpensBlock (weighed options.memTableMaxSize pre w)) := by
  have hmem := mem_writes_of_called hpre
  have hmost := h.most_lt
  have hpair := h.pairs w hmem
  rcases run_flushLog hrun with ⟨hlog, hopen, -⟩
  rcases run_unflushed (h.sizesFit.mono ((List.prefix_append pre [.write w]).trans hpre)) hrun with
    ⟨cached, htracks⟩
  rcases walAppend_progress host.crc32c db.walWriter (h.keys w hmem)
    (show w.value.length < 2 ^ 32 - 1 by omega) with ⟨walWriter, hwal⟩
  rcases steps_spec htracks hwal with ⟨db₁, cached₁, hsteps, -, h₁, -, hsame⟩
  rw [← toMap_heldAfter] at h₁
  have hnodup := heldAfter_nodup (unflushed_nodup options.memTableMaxSize pre) w
  have hne : weighed options.memTableMaxSize pre w ≠ [] := List.cons_ne_nil _ _
  have hle := h.weighed_le hpre
  have hmax : db₁.options.memTableMaxSize = options.memTableMaxSize := by
    rw [hsame.options, run_maxSize hrun]
  have hdir : db₁.options.storageDir ≠ [] := by
    rw [hsame.options, hlog.counter]
    exact h.directory
  have hfull := ((comparesTrueSize_iff hnodup h₁ hmax).2 (h.sizesFit pre w hpre)).full
  have hflushes := flushIfFull_returns_iff h₁ hnodup hdir hne (lt_of_le_of_lt hle hmost)
    (h.inRange hnodup hne hle) hfull
  rw [weighed, ← hflushes, write_eq_run host _ hopen, Write.stages]
  constructor
  · rintro ⟨db', hwrite⟩
    rcases run_concat_ok.1 hwrite with ⟨db₂, hsteps₂, hflush⟩
    obtain rfl := Except.ok.inj (hsteps.symm.trans hsteps₂)
    exact ⟨db', hflush⟩
  · rintro ⟨db', hflush⟩
    exact ⟨db', run_concat_ok.2 ⟨db₁, hsteps, hflush⟩⟩

/-- The key of a `Get` is in the cache or among the pairs that no table has yet. -/
def Findable (host : Host) (fm : FloatMath) (options : Options) (disk : Disk) (pre : List Op)
    (key : Bytes) : Prop :=
  ∀ db, run (step host (sstFormat fm)) (openDB options disk) pre = .ok db →
    db.cache.contains host.hash (cString key) = true ∨
      cString key ∈ (batches options.memTableMaxSize pre).held.map Prod.fst

theorem Ordinary.get_returns_iff (h : Ordinary fm options most ops) (hpre : pre <+: ops)
    {db : DBImpl} (hrun : run (step host (sstFormat fm)) (openDB options disk) pre = .ok db)
    (key out : Bytes) :
    (∃ r, db.get host (sstFormat fm) key out = .ok r) ↔
      Findable host fm options disk pre key := by
  rcases run_flushLog hrun with ⟨-, hopen, -⟩
  rcases run_unflushed (h.sizesFit.mono hpre) hrun with ⟨cached, htracks⟩
  have hheld : db.memTable.contains key = .ok true ↔
      cString key ∈ (batches options.memTableMaxSize pre).held.map Prod.fst := by
    rw [htracks.memTable.contains, Except.ok.injEq, Option.isSome_iff_ne_none, held_eq_unflushed,
      Ne, toMap_eq_none_iff, not_not]
  rw [htracks.get_returns_iff key out, hheld]
  constructor
  · rintro ⟨-, hfound⟩ db' hrun'
    obtain rfl := Except.ok.inj (hrun.symm.trans hrun')
    exact hfound
  · intro hfound
    exact ⟨hopen, hfound db hrun⟩

/-- What has to hold for a call to return. -/
def CanReturn (host : Host) (fm : FloatMath) (options : Options) (disk : Disk) (pre : List Op) :
    Op → Prop
  | .write w => options.memTableMaxSize ≤ bytesOf (weighed options.memTableMaxSize pre w) →
      OpensBlock (weighed options.memTableMaxSize pre w)
  | .get key => Findable host fm options disk pre key

theorem Ordinary.step_returns_iff (h : Ordinary fm options most ops) {op : Op}
    (hpre : pre ++ [op] <+: ops) {db : DBImpl}
    (hrun : run (step host (sstFormat fm)) (openDB options disk) pre = .ok db) :
    (∃ db', db.step host (sstFormat fm) op = .ok db') ↔ CanReturn host fm options disk pre op := by
  cases op with
  | write w => exact h.write_returns_iff hpre hrun
  | get key =>
      rw [CanReturn, ← h.get_returns_iff ((List.prefix_append pre [.get key]).trans hpre) hrun key []]
      constructor
      · rintro ⟨db', hstep⟩
        rcases bind_eq_ok.1 hstep with ⟨r, hget, -⟩
        exact ⟨r, hget⟩
      · rintro ⟨r, hget⟩
        exact ⟨r.1, by rw [step, hget]; rfl⟩

/-- The flush tests that are met are those of the full batches. -/
theorem guards_iff (max : ℕ) (ops : List Op) :
    (∀ pre w, pre ++ [.write w] <+: ops → max ≤ bytesOf (weighed max pre w) →
      OpensBlock (weighed max pre w)) ↔ ∀ batch ∈ (batches max ops).full, OpensBlock batch := by
  induction ops using List.reverseRecOn with
  | nil => simp [batches]
  | append_singleton ops op ih =>
      rw [batches_concat]
      cases op with
      | get key =>
          rw [Batches.add, ← ih]
          constructor
          · intro h pre w hpre
            exact h pre w (hpre.trans (List.prefix_append _ _))
          · intro h pre w hpre
            rcases List.prefix_concat_iff.1 hpre with heq | hpre
            · simp at heq
            · exact h pre w hpre
      | write w =>
          have hlast : (∀ pre v, pre ++ [.write v] <+: ops ++ [.write w] →
              max ≤ bytesOf (weighed max pre v) → OpensBlock (weighed max pre v)) ↔
                (max ≤ bytesOf (weighed max ops w) → OpensBlock (weighed max ops w)) ∧
                  ∀ batch ∈ (batches max ops).full, OpensBlock batch := by
            rw [← ih]
            constructor
            · intro h
              exact ⟨h ops w (List.prefix_refl _),
                fun pre v hpre => h pre v (hpre.trans (List.prefix_append _ _))⟩
            · rintro ⟨hw, h⟩ pre v hpre
              rcases List.prefix_concat_iff.1 hpre with heq | hpre
              · obtain ⟨rfl, rfl⟩ : pre = ops ∧ v = w := by simpa using heq
                exact hw
              · exact h pre v hpre
          rw [hlast, weighed, ← held_eq_unflushed, Batches.add]
          split
          · rename_i hfull
            simp [hfull]
          · rename_i hnot
            simp [hnot]

theorem Ordinary.unflushed_le (h : Ordinary fm options most ops) (hpre : pre <+: ops) :
    bytesOf (unflushed options.memTableMaxSize pre) ≤ most := by
  induction pre using List.reverseRecOn with
  | nil => exact Nat.zero_le most
  | append_singleton pre op ih =>
      rw [unflushed_concat]
      cases op with
      | get key => exact ih ((List.prefix_append pre [.get key]).trans hpre)
      | write w =>
          rw [unflushedStep]
          split
          · exact Nat.zero_le most
          · exact h.weighed_le hpre

/-- `Close` has nothing to flush, or a table that opens. -/
theorem Ordinary.close_returns_iff (h : Ordinary fm options most ops) {db : DBImpl}
    (hrun : run (step host (sstFormat fm)) (openDB options disk) ops = .ok db) :
    (∃ r, db.close host (sstFormat fm) = .ok r) ↔
      (batches options.memTableMaxSize ops).held = [] ∨
        OpensBlock (batches options.memTableMaxSize ops).held := by
  rw [held_eq_unflushed]
  have hmost := h.most_lt
  have hnodup := unflushed_nodup options.memTableMaxSize ops
  have hle := h.unflushed_le (List.prefix_refl ops)
  rcases run_flushLog hrun with ⟨hlog, hopen, -⟩
  rcases run_unflushed h.sizesFit hrun with ⟨cached, htracks⟩
  have hdir : db.options.storageDir ≠ [] := by
    rw [hlog.counter]
    exact h.directory
  have hsize : db.memTable.getSize > 0 ↔ unflushed options.memTableMaxSize ops ≠ [] := by
    rcases htracks.memTable.entries with ⟨entries, -, hsorted, hmap, hsize, -⟩
    have hlength := (perm_of_toMap_eq (nodup_keys_of_sorted hsorted) hnodup hmap).length_eq
    have hfew : (unflushed options.memTableMaxSize ops).length ≤
        bytesOf (unflushed options.memTableMaxSize ops) + 1 := length_le_totalBytes hnodup
    rw [hsize, hlength, asInt32_of_lt (by omega) (by omega), ← List.length_pos_iff_ne_nil]
    omega
  rw [close]
  by_cases hnil : unflushed options.memTableMaxSize ops = []
  · rw [if_neg fun hc => hsize.1 hc.2 hnil]
    exact iff_of_true ⟨_, rfl⟩ (Or.inl hnil)
  · have hflush := memTableToSST_returns_iff htracks hnodup hdir hnil (lt_of_le_of_lt hle hmost)
      (h.inRange hnodup hnil hle)
    rw [if_pos ⟨hopen, hsize.2 hnil⟩, or_iff_right hnil, ← hflush]
    constructor
    · rintro ⟨r, hclose⟩
      rcases bind_eq_ok.1 hclose with ⟨db₁, hrun₁, -⟩
      exact ⟨db₁, hrun₁⟩
    · rintro ⟨db₁, hrun₁⟩
      exact ⟨_, by rw [hrun₁, ok_bind, pure_eq_ok]⟩

end Runs

end DBImpl

open DBImpl

/-- The arithmetic of the witnesses is in range for as many keys as fit in. -/
theorem decimalMath_inRange {n : ℕ} (hpos : 0 < n) (hle : n ≤ 2 ^ 23) :
    decimalMath.InRange n := by
  have hbits : decimalMath.bitsNum n = -(95850583773 * n / 10000000000 : ℕ) := by
    show (-95850583773 * (n : ℤ)).tdiv 10000000000 = _
    rw [Int.neg_mul, Int.neg_tdiv, Int.tdiv_eq_ediv_of_nonneg (by positivity)]
    push_cast
    rfl
  constructor
  · rw [hbits]
    omega
  · rw [hbits]
    omega

/-- "a" is found in the memtable before the second write makes a table. -/
def getsAndFlushes : List Op :=
  [.write (.put [] (ascii "a") []), .get (ascii "a"), .write (.delete [] (ascii "b"))]

end Smallkv
