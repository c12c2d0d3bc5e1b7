import Smallkv.DB.Batches
import Smallkv.DB.Misses
import Smallkv.DB.Sessions
import Smallkv.Table.Decoding

/-!
# DB.OnDisk — what a closed database has left on the disk

The database never gets anything out of a table, for its parser faults on every file.
The tables have it all the same: when the database is closed, the pairs that can be
decoded from the files, a newer table laid over an older one, are the map the client
has written. Only the empty key is in no table.
-/

namespace Smallkv

open Fallible Assoc

/-! ## The files as one map -/

/-- The `i`-th table of a session, as its file has it. -/
def tableOnDisk (host : Host) (options : Options) (files : FileId → Option Bytes) (i : ℕ) :
    Bytes → Option Bytes := fun key =>
  ((files (tableFile host options (options.lisstNum + UInt32.ofNat i))).bind decodeTable).bind
    fun entries => toMap entries key

/-- The first `n` tables, the newest one on top. -/
def recover (host : Host) (options : Options) (files : FileId → Option Bytes) (n : ℕ) :
    Bytes → Option Bytes :=
  overlay ((List.range n).reverse.map (tableOnDisk host options files))

/-- A session has the file of every number from its start up to how often it flushed, and
no other. -/
theorem SessionFlushes.mem_files_iff {host : Host} {sst : SstFormat} {options : Options}
    {fs : List Flush} (h : SessionFlushes host sst options fs) (hfew : fs.length ≤ 2 ^ 32) {i : ℕ}
    (hi : i < 2 ^ 32) :
    tableFile host options (options.lisstNum + UInt32.ofNat i) ∈ fs.map Flush.file ↔
      i < fs.length := by
  have hnumbers : ∀ number, number ∈ fs.map Flush.number ↔
      ∃ j < fs.length, options.lisstNum + UInt32.ofNat j = number := by
    intro number
    rw [h.numbers, List.mem_map]
    simp only [List.mem_reverse, List.mem_range]
  constructor
  · intro hmem
    rcases List.mem_map.1 hmem with ⟨f, hf, hfile⟩
    rw [h.file f hf] at hfile
    have hnumber := (hnumbers f.number).1 (List.mem_map_of_mem hf)
    rw [tableFile_injective hfile] at hnumber
    rcases hnumber with ⟨j, hj, hsame⟩
    have htoNat := congrArg UInt32.toNat (add_left_cancel hsame)
    rw [UInt32.toNat_ofNat', UInt32.toNat_ofNat', Nat.mod_eq_of_lt (by omega),
      Nat.mod_eq_of_lt hi] at htoNat
    omega
  · intro hlt
    rcases List.mem_map.1 ((hnumbers _).2 ⟨i, hlt, rfl⟩) with ⟨f, hf, hnumber⟩
    exact List.mem_map.2 ⟨f, hf, by rw [h.file f hf, hnumber]⟩

/-- A memtable stands for one map. -/
theorem MemTable.Represents.unique {t : MemTable} {m m' : Bytes → Option Bytes}
    (h : t.Represents m) (h' : t.Represents m') : m = m' := by
  rcases h.entries with ⟨l, hl, -, hmap, -⟩
  rcases h'.entries with ⟨l', hl', -, hmap', -⟩
  obtain rfl : l = l' := Except.ok.inj (hl.symm.trans hl')
  exact hmap.symm.trans hmap'

namespace DBImpl

variable {host : Host} {sst : SstFormat} {options : Options} {files : FileId → Option Bytes}
  {db db' : DBImpl} {mem cached : Bytes → Option Bytes}

/-! ## Closing -/

/-- A table has no more pairs than there were writes. -/
theorem FromWrites.length_le {ws : List Write} {fs : List Flush} (h : FromWrites ws fs) {f : Flush}
    (hf : f ∈ fs) (hsorted : f.entries.Pairwise fun a b => a.1 < b.1) :
    f.entries.length ≤ ws.length := by
  have hsubset : f.entries.map Prod.fst ⊆ ws.map fun w => cString w.key := by
    intro k hk
    rcases List.mem_map.1 hk with ⟨p, hp, rfl⟩
    rcases h f hf p hp with ⟨w, hw, hkey, -⟩
    exact List.mem_map.2 ⟨w, hw, hkey⟩
  have hle := ((nodup_keys_of_sorted hsorted).subperm hsubset).length_le
  simpa using hle

/-- Behind `Close` everything that was stored is in the tables, and there are no more of
them than writes. -/
theorem close_leaves {disk : Disk} {ops : List Op}
    (hrun : run (step host sst) (openDB options disk) ops = .ok db)
    (hfew : (writes ops).length < 2 ^ 31) {status : DBStatus}
    (hclose : db.close host sst = .ok (db', status)) :
    FlushLog host sst options disk.files db' ∧ FromWrites (writes ops) db'.flushes ∧
      overlay (db'.flushes.map fun f => toMap f.entries) = lastStored (writes ops) ∧
      db'.flushes.length ≤ (writes ops).length + 1 := by
  rcases run_flushLog hrun with ⟨hlog, hopen, -⟩
  rcases run_fromWrites hrun with ⟨mem, cached, h, hmap, hfrom⟩
  rcases run_traces hrun with ⟨mem', cached', h', htraces⟩
  obtain rfl : mem' = mem := h'.memTable.unique h.memTable
  have hcount := htraces.few
  rcases close_cases h hclose with ⟨rfl, hidle⟩ | ⟨-, db₁, f, hflush, rfl⟩
  · -- the memtable was empty
    have hempty : ∀ k, mem' k = none := by
      have hsize := htraces.getSize h hfew
      rcases hidle with hclosed | hle
      · rw [hopen] at hclosed
        cases hclosed
      · intro k
        by_contra hk
        exact absurd (hsize.2 ⟨k, hk⟩) (not_lt.2 hle)
    refine ⟨hlog, hfrom, ?_, by omega⟩
    rw [← hmap, layers, funext hempty, overlay_push_empty]
  · have hlog' : FlushLog host sst options disk.files { db₁ with closed := true } :=
      { hflush.flushLog hlog with }
    refine ⟨hlog', hflush.fromWrites hmap hfrom, ?_, ?_⟩
    · rw [← hmap, ← hflush.layers, layers, overlay_push_empty]
    · simp only [hflush.flushes, List.length_cons]
      omega

/-! ## Decoding the files -/

/-- The files of a session that began without any: they are those of its numbers, and
decoded they are what was flushed. -/
theorem FlushLog.recovered {fm : FloatMath} (h : FlushLog host (sstFormat fm) options files db)
    (hnew : ∀ number, files (tableFile host options number) = none) {ws : List Write}
    (hfrom : FromWrites ws db.flushes) (hfew : ws.length < 2 ^ 31)
    (hshort : ∀ w ∈ ws, w.bytes < 2 ^ 31) (hbits : ∀ n : ℕ, n ≤ ws.length → -2 ^ 31 ≤ fm.bitsNum n)
    (hcount : db.flushes.length ≤ 2 ^ 32) (hsize : ∀ f ∈ db.flushes, f.bytes.length < 2 ^ 31) :
    (∀ i < 2 ^ 32,
        (db.files (tableFile host options (options.lisstNum + UInt32.ofNat i))).isSome ↔
          i < db.flushes.length) ∧
      ∀ key, recover host options db.files db.flushes.length key =
        if key = [] then none else overlay (db.flushes.map fun f => toMap f.entries) key := by
  have hstored := h.stored hnew (h.flushes.nodup_iff.2 hcount)
  have hdecode : ∀ f ∈ db.flushes, (db.files (tableFile host options f.number)).bind decodeTable =
      some (withKey f.entries) := by
    intro f hf
    have hfile := hstored f hf
    rw [h.flushes.file f hf] at hfile
    have hlength := hfrom.length_le hf (h.flushes.sorted f hf)
    have hbuild := h.flushes.bytes f hf
    rw [asInt32_of_lt (Int.natCast_nonneg _) (by omega)] at hbuild
    rw [hfile, Option.bind_some]
    refine table_decodes fm (hbits _ hlength) ?_ hbuild (hsize f hf)
    exact fun p hp => hfrom.short hshort hf p (List.mem_of_mem_filter hp)
  constructor
  · intro i hi
    rw [← h.flushes.mem_files_iff hcount hi]
    constructor
    · intro hsome
      by_contra hother
      rw [h.files, replay_other hother, hnew] at hsome
      cases hsome
    · intro hmem
      rcases List.mem_map.1 hmem with ⟨f, hf, hfile⟩
      rw [← hfile, hstored f hf]
      rfl
  · intro key
    have htables : (List.range db.flushes.length).reverse.map (tableOnDisk host options db.files) =
        (db.flushes.map Flush.entries).map fun entries => toMap (withKey entries) := by
      calc _ = (db.flushes.map Flush.number).map fun number key =>
              ((db.files (tableFile host options number)).bind decodeTable).bind
                fun entries => toMap entries key := by
            rw [h.flushes.numbers, List.map_map]
            rfl
        _ = _ := by
            rw [List.map_map, List.map_map]
            refine List.map_congr_left fun f hf => ?_
            funext key
            simp only [Function.comp_apply, hdecode f hf, Option.bind_some]
    have htoMap : (db.flushes.map Flush.entries).map toMap =
        db.flushes.map fun f => toMap f.entries := List.map_map
    rw [recover, htables, overlay_withKey, htoMap]

end DBImpl

open DBImpl

/-- A closed database is on its disk: of a session that began in a directory without
tables, one can tell from the files alone, in the order of their numbers, what every key
was stored with last. The empty key is the only one that is lost. -/
theorem closed_database_recovered (host : Host) (fm : FloatMath) (options : Options) (disk : Disk)
    (hnew : ∀ number, disk.files (tableFile host options number) = none) {ops : List Op}
    (hfew : (writes ops).length < 2 ^ 31) (hshort : ∀ w ∈ writes ops, w.bytes < 2 ^ 31)
    (hbits : ∀ n : ℕ, n ≤ (writes ops).length → -2 ^ 31 ≤ fm.bitsNum n) {db db' : DBImpl}
    (hrun : run (step host (sstFormat fm)) (openDB options disk) ops = .ok db) {status : DBStatus}
    (hclose : db.close host (sstFormat fm) = .ok (db', status))
    (hsize : ∀ f ∈ db'.flushes, f.bytes.length < 2 ^ 31) :
    ∃ n, (∀ i < 2 ^ 32,
        (db'.files (tableFile host options (options.lisstNum + UInt32.ofNat i))).isSome ↔ i < n) ∧
      ∀ key, recover host options db'.files n key =
        if key = [] then none else lastStored (writes ops) key := by
  rcases close_leaves hrun hfew hclose with ⟨hlog, hfrom, hmap, hcount⟩
  have hrecovered := hlog.recovered hnew hfrom hfew hshort hbits (by omega) hsize
  rw [hmap] at hrecovered
  exact ⟨_, hrecovered⟩

/-- The value is in one table and its deletion in the next one, which `Close` makes. -/
def putAndDelete : List Op :=
  [.write (.put [] (ascii "a") (ascii "x")), .write (.delete [] (ascii "a"))]

theorem closed_database_recovered_deleted :
    ∃ db db' status, run (step plainHost (sstFormat decimalMath))
        (openDB (tinyOptions (ascii "db") (by decide)) Disk.empty) putAndDelete = .ok db ∧
      db.close plainHost (sstFormat decimalMath) = .ok (db', status) ∧
      ∃ n, (∀ i < 2 ^ 32, (db'.files (tableFile plainHost (tinyOptions (ascii "db") (by decide))
          (0 + UInt32.ofNat i))).isSome ↔ i < n) ∧
        ∀ key, recover plainHost (tinyOptions (ascii "db") (by decide)) db'.files n key =
          if key = [] then none else lastStored (writes putAndDelete) key := by
  have hrun : ∃ db db' status, run (step plainHost (sstFormat decimalMath))
      (openDB (tinyOptions (ascii "db") (by decide)) Disk.empty) putAndDelete = .ok db ∧
      db.close plainHost (sstFormat decimalMath) = .ok (db', status) ∧
      ∀ f ∈ db'.flushes, f.bytes.length < 2 ^ 31 :=
    ⟨_, _, _, rfl, rfl, by decide +kernel⟩
  rcases hrun with ⟨db, db', status, hrun, hclose, hsize⟩
  have hbits : ∀ n : ℕ, n ≤ (writes putAndDelete).length → -2 ^ 31 ≤ decimalMath.bitsNum n := by
    decide
  exact ⟨db, db', status, hrun, hclose, closed_database_recovered plainHost decimalMath
    (tinyOptions (ascii "db") (by decide)) Disk.empty (fun _ => rfl) (by decide) (by decide) hbits
    hrun hclose hsize⟩

/-- A crash between two calls loses what is held back and no more. In a session that
began in a directory without tables, as long as the sizes fit, the pairs behind the last
full batch, laid over what is on the disk, say of every key but the empty one what it was
stored with last. -/
theorem crash_loses_held (host : Host) (fm : FloatMath) (options : Options) (disk : Disk)
    (hnew : ∀ number, disk.files (tableFile host options number) = none) {ops : List Op}
    (hfit : ∀ w ∈ writes ops, options.memTableMaxSize + w.bytes < 2 ^ 64)
    (hfew : (writes ops).length < 2 ^ 31) (hshort : ∀ w ∈ writes ops, w.bytes < 2 ^ 31)
    (hbits : ∀ n : ℕ, n ≤ (writes ops).length → -2 ^ 31 ≤ fm.bitsNum n) {db : DBImpl}
    (hrun : run (step host (sstFormat fm)) (openDB options disk) ops = .ok db)
    (hsize : ∀ f ∈ db.flushes, f.bytes.length < 2 ^ 31) :
    ∃ n, (∀ i < 2 ^ 32, (db.disk.files
        (tableFile host options (options.lisstNum + UInt32.ofNat i))).isSome ↔ i < n) ∧
      recover host options db.disk.files n [] = none ∧
      ∀ key, key ≠ [] → lastStored (writes ops) key =
        (toMap (batches options.memTableMaxSize ops).held key).or
          (recover host options db.disk.files n key) := by
  rcases run_flushLog hrun with ⟨hlog, -, -⟩
  rcases run_fromWrites hrun with ⟨mem, cached, h, hmap, hfrom⟩
  rcases run_unflushed (sizesFit_of_writes hfit) hrun with ⟨cached', h'⟩
  have hheld : toMap (batches options.memTableMaxSize ops).held = mem := by
    rw [held_eq_unflushed]
    exact h'.memTable.unique h.memTable
  have hcount : db.flushes.length ≤ 2 ^ 32 := by
    rcases run_traces hrun with ⟨_, _, -, htraces⟩
    have hle := htraces.few
    omega
  rcases hlog.recovered hnew hfrom hfew hshort hbits hcount hsize with ⟨hfiles, hrecover⟩
  refine ⟨db.flushes.length, hfiles, ?_, ?_⟩
  · exact (hrecover []).trans (if_pos rfl)
  · intro key hkey
    have htables := hrecover key
    rw [if_neg hkey] at htables
    rw [hheld, ← hmap, layers, overlay_cons]
    exact congrArg _ htables.symm

/-- A crash behind `putAndDelete` loses the deletion, and the value is there again. -/
theorem crash_loses_held_deleted :
    ∃ db, run (step plainHost (sstFormat decimalMath))
        (openDB (tinyOptions (ascii "db") (by decide)) Disk.empty) putAndDelete = .ok db ∧
      ∃ n, (∀ i < 2 ^ 32, (db.disk.files (tableFile plainHost
          (tinyOptions (ascii "db") (by decide)) (0 + UInt32.ofNat i))).isSome ↔ i < n) ∧
        recover plainHost (tinyOptions (ascii "db") (by decide)) db.disk.files n [] = none ∧
        ∀ key, key ≠ [] → lastStored (writes putAndDelete) key =
          (toMap (batches 2 putAndDelete).held key).or
            (recover plainHost (tinyOptions (ascii "db") (by decide)) db.disk.files n key) := by
  have hrun : ∃ db, run (step plainHost (sstFormat decimalMath))
      (openDB (tinyOptions (ascii "db") (by decide)) Disk.empty) putAndDelete = .ok db ∧
      ∀ f ∈ db.flushes, f.bytes.length < 2 ^ 31 :=
    ⟨_, rfl, by decide +kernel⟩
  rcases hrun with ⟨db, hrun, hsize⟩
  have hfit : ∀ w ∈ writes putAndDelete, 2 + w.bytes < 2 ^ 64 := by decide
  have hbits : ∀ n : ℕ, n ≤ (writes putAndDelete).length → -2 ^ 31 ≤ decimalMath.bitsNum n := by
    decide
  exact ⟨db, hrun, crash_loses_held plainHost decimalMath (tinyOptions (ascii "db") (by decide))
    Disk.empty (fun _ => rfl) hfit (by decide) (by decide) hbits hrun hsize⟩

end Smallkv
