import Smallkv.DB.Progress

/-!
# DB.Overlay — the tiers as one map

The memtable laid over the tables, newest first, is the map a client has
written. A write changes the top of the stack, and a flush only moves the top
one place down, so the run lemma needs nothing about how many flushes there
were. Reading the tables by their numbers does: the counter has 32 bits.
-/

namespace Smallkv

open Fallible Assoc

namespace DBImpl

/-- The table with the number `i`. -/
def table (db : DBImpl) (i : ℕ) : Bytes → Option Bytes := fun key =>
  (db.flushes.find? fun f => f.number.toNat = i).bind fun f => toMap f.entries key

/-- The tables from number `LISST_NUM - 1` down to number 0. -/
def tables (db : DBImpl) : List (Bytes → Option Bytes) :=
  (List.range db.options.lisstNum.toNat).reverse.map db.table

/-- Every number below the counter was given to one table, and the file of that
number holds the table's bytes and no others. -/
structure TablesWritten (host : Host) (sst : SstFormat) (db : DBImpl) : Prop where
  once : ∀ i < db.options.lisstNum.toNat, (db.flushes.map fun f => f.number.toNat).count i = 1
  stored : ∀ f ∈ db.flushes, db.files (tableFile host db.options f.number) = some f.bytes ∧
    sst.build (asInt32 f.entries.length) f.entries = .ok f.bytes

/-- What is promised of the state behind the writes `ws`. -/
structure OverlayHolds (host : Host) (sst : SstFormat) (db : DBImpl) (ws : List Write) :
    Prop where
  overlay : ∀ key, 0 ∉ key → ∃ v, db.memTable.get key = .ok v ∧
    v.or (overlay db.tables key) = lastWrite ws key
  written : TablesWritten host sst db
  close : ∀ db' status entries, db.close host sst = .ok (db', status) →
    db.memTable.entries = .ok entries → entries.length < 2 ^ 31 → db'.flushes.length < 2 ^ 32 →
      (∀ key, 0 ∉ key → Assoc.overlay db'.tables key = lastWrite ws key) ∧
        TablesWritten host sst db'

variable {host : Host} {sst : SstFormat} {options : Options} {files : FileId → Option Bytes}
  {db db' : DBImpl} {mem cached : Bytes → Option Bytes}

/-- The stack of maps: the memtable, then what was flushed, newest first. -/
def layers (mem : Bytes → Option Bytes) (fs : List Flush) : List (Bytes → Option Bytes) :=
  mem :: fs.map fun f => toMap f.entries

/-- A flush moves the top of the stack one place down. -/
theorem FlushStep.layers {f : Flush} (hflush : FlushStep host sst db db' mem f) :
    overlay (layers (fun _ => none) db'.flushes) = overlay (layers mem db.flushes) := by
  rw [DBImpl.layers, overlay_push_empty, hflush.flushes, List.map_cons, hflush.entries,
    DBImpl.layers]

/-- A write puts its C strings on top. -/
theorem layers_memAfter {fs : List Flush} {ops : List Op}
    (hmap : overlay (layers mem fs) = lastStored (writes ops)) (op : Op) :
    overlay (layers (memAfter mem op) fs) = lastStored (writes (ops ++ [op])) := by
  cases op with
  | get key => rw [writes_concat_get, memAfter, hmap]
  | write w =>
      rw [writes_concat_write, lastStored_concat, memAfter, layers, overlay_update_top, ← layers,
        hmap]

/-- Whether it flushes or not, a call takes the stack along. -/
theorem step_layers {ops : List Op} {op : Op} (h : Tracks host db mem cached)
    (hmap : overlay (layers mem db.flushes) = lastStored (writes ops))
    (hrun : db.step host sst op = .ok db') :
    ∃ mem' cached', Tracks host db' mem' cached' ∧
      overlay (layers mem' db'.flushes) = lastStored (writes (ops ++ [op])) := by
  rcases step_cases h hrun with ⟨db₁, cached₁, h₁, hsame, hflush⟩
  rw [← hsame.flushes] at hmap
  have hlayers := layers_memAfter hmap op
  rcases hflush with rfl | ⟨w, f, -, hf, hnew⟩
  · exact ⟨_, cached₁, h₁, hlayers⟩
  · exact ⟨_, _, hf.tracks hnew h₁, hf.layers.trans hlayers⟩

/-- The stack stands for what was stored last, in every state of every run. -/
theorem run_layers {disk : Disk} {ops : List Op}
    (hrun : run (step host sst) (openDB options disk) ops = .ok db) :
    ∃ mem cached, Tracks host db mem cached ∧
      overlay (layers mem db.flushes) = lastStored (writes ops) := by
  refine run_history_invariant (fun ops db => ∃ mem cached, Tracks host db mem cached ∧
    overlay (layers mem db.flushes) = lastStored (writes ops)) ?_ ?_ hrun
  · exact ⟨_, _, openDB_tracks host options disk, rfl⟩
  · rintro ops db op db' ⟨mem, cached, h, hmap⟩ hstep
    exact step_layers h hmap hstep

/-! ## Where the pairs come from -/

/-- The bytes of a write's pair. -/
def Write.bytes (w : Write) : ℕ := (cString w.key).length + (cString w.value).length

theorem mem_of_lastWrite {ws : List Write} {key v : Bytes} (h : lastWrite ws key = some v) :
    ∃ w ∈ ws, w.key = key ∧ w.value = v := by
  rcases Option.map_eq_some_iff.1 h with ⟨w, hfind, hvalue⟩
  have hmem := List.mem_of_find?_eq_some hfind
  have hkey := List.find?_some hfind
  exact ⟨w, List.mem_reverse.1 hmem, of_decide_eq_true hkey, hvalue⟩

theorem mem_of_lastStored {ws : List Write} {k v : Bytes} (h : lastStored ws k = some v) :
    ∃ w ∈ ws, cString w.key = k ∧ cString w.value = v := by
  rcases mem_of_lastWrite h with ⟨w, hw, hkey, hvalue⟩
  rcases List.mem_map.1 hw with ⟨u, hu, rfl⟩
  exact ⟨u, hu, by rw [← hkey, Write.key_stored], by rw [← hvalue, Write.value_stored]⟩

/-- Every pair in a table was written. -/
def FromWrites (ws : List Write) (fs : List Flush) : Prop :=
  ∀ f ∈ fs, ∀ p ∈ f.entries, ∃ w ∈ ws, cString w.key = p.1 ∧ cString w.value = p.2

theorem FromWrites.mono {ws ws' : List Write} {fs : List Flush} (h : FromWrites ws fs)
    (hws : ws ⊆ ws') : FromWrites ws' fs := by
  intro f hf p hp
  rcases h f hf p hp with ⟨w, hw, hpair⟩
  exact ⟨w, hws hw, hpair⟩

/-- The pairs of a flush are shorter than 2 GiB if those that are written are. -/
theorem FromWrites.short {ws : List Write} {fs : List Flush} (h : FromWrites ws fs)
    (hshort : ∀ w ∈ ws, w.bytes < 2 ^ 31) {f : Flush} (hf : f ∈ fs) :
    ∀ p ∈ f.entries, p.1.length + p.2.length < 2 ^ 31 := by
  intro p hp
  rcases h f hf p hp with ⟨w, hw, hkey, hvalue⟩
  rw [← hkey, ← hvalue]
  exact hshort w hw

/-- A table is made of the memtable, which is the top of the stack. -/
theorem FlushStep.fromWrites {ws : List Write} {f : Flush} (hflush : FlushStep host sst db db' mem f)
    (hmap : overlay (DBImpl.layers mem db.flushes) = lastStored ws) (h : FromWrites ws db.flushes) :
    FromWrites ws db'.flushes := by
  rw [hflush.flushes]
  intro g hg p hp
  rcases List.mem_cons.1 hg with rfl | hg
  · have hmem : mem p.1 = some p.2 := by
      rw [← hflush.entries]
      exact (toMap_eq_some_iff (nodup_keys_of_sorted hflush.sorted)).2 hp
    have hstored : lastStored ws p.1 = some p.2 := by
      rw [← hmap, DBImpl.layers, overlay_cons, hmem]
      rfl
    exact mem_of_lastStored hstored
  · exact h g hg p hp

theorem step_fromWrites {ops : List Op} {op : Op} (h : Tracks host db mem cached)
    (hmap : overlay (layers mem db.flushes) = lastStored (writes ops))
    (hfrom : FromWrites (writes ops) db.flushes) (hrun : db.step host sst op = .ok db') :
    FromWrites (writes (ops ++ [op])) db'.flushes := by
  rcases step_cases h hrun with ⟨db₁, cached₁, h₁, hsame, hflush⟩
  rw [← hsame.flushes] at hmap hfrom
  have hfrom₁ : FromWrites (writes (ops ++ [op])) db₁.flushes := by
    refine hfrom.mono ?_
    cases op with
    | get key => rw [writes_concat_get]; exact List.Subset.refl _
    | write w => rw [writes_concat_write]; exact List.subset_append_left _ _
  rcases hflush with rfl | ⟨w, f, -, hf, -⟩
  · exact hfrom₁
  · exact hf.fromWrites (layers_memAfter hmap op) hfrom₁

theorem run_fromWrites {disk : Disk} {ops : List Op}
    (hrun : run (step host sst) (openDB options disk) ops = .ok db) :
    ∃ mem cached, Tracks host db mem cached ∧
      overlay (layers mem db.flushes) = lastStored (writes ops) ∧
      FromWrites (writes ops) db.flushes := by
  refine run_history_invariant (fun ops db => ∃ mem cached, Tracks host db mem cached ∧
    overlay (layers mem db.flushes) = lastStored (writes ops) ∧
    FromWrites (writes ops) db.flushes) ?_ ?_ hrun
  · exact ⟨_, _, openDB_tracks host options disk, rfl, by simp [FromWrites, openDB]⟩
  · rintro ops db op db' ⟨mem, cached, h, hmap, hfrom⟩ hstep
    rcases step_layers h hmap hstep with ⟨mem', cached', h', hmap'⟩
    exact ⟨mem', cached', h', hmap', step_fromWrites h hmap hfrom hstep⟩

/-! ## Tables by number -/

/-- Up to `2 ^ 32 - 1` flushes the counter is their number. -/
theorem FlushLog.numbers_eq (hnum : options.lisstNum = 0) (h : FlushLog host sst options files db)
    (hcount : db.flushes.length < 2 ^ 32) : db.options.lisstNum.toNat = db.flushes.length ∧
      (db.flushes.map fun f => f.number.toNat) = (List.range db.flushes.length).reverse := by
  have hsmall : ∀ i < 2 ^ 32, (options.lisstNum + UInt32.ofNat i).toNat = i := by
    intro i hi
    rw [hnum]
    simpa using hi
  constructor
  · rw [h.counter]
    exact hsmall _ hcount
  · calc (db.flushes.map fun f => f.number.toNat)
        = (db.flushes.map Flush.number).map UInt32.toNat := by rw [List.map_map]; rfl
      _ = (List.range db.flushes.length).reverse.map fun i => i := by
          rw [h.flushes.numbers, List.map_map]
          apply List.map_congr_left
          intro i hi
          rw [List.mem_reverse, List.mem_range] at hi
          exact hsmall i (hi.trans hcount)
      _ = _ := by simp

/-- Then the tables are what was flushed, in order. -/
theorem FlushLog.tables_eq (hnum : options.lisstNum = 0) (h : FlushLog host sst options files db)
    (hcount : db.flushes.length < 2 ^ 32) :
    db.tables = db.flushes.map fun f => toMap f.entries := by
  rcases h.numbers_eq hnum hcount with ⟨hcounter, hnumbers⟩
  have hnodup : (db.flushes.map fun f => f.number.toNat).Nodup := by
    rw [hnumbers]
    exact List.nodup_reverse.2 List.nodup_range
  rw [tables, hcounter, ← hnumbers, List.map_map]
  apply List.map_congr_left
  intro f hf
  funext key
  simp only [Function.comp_apply, table, find?_label hnodup hf, Option.bind_some]

theorem FlushLog.tablesWritten (hnum : options.lisstNum = 0)
    (h : FlushLog host sst options (fun _ => none) db) (hcount : db.flushes.length < 2 ^ 32) :
    TablesWritten host sst db where
  once := by
    rcases h.numbers_eq hnum hcount with ⟨hcounter, hnumbers⟩
    intro i hi
    rw [hnumbers]
    exact List.count_eq_one_of_mem (List.nodup_reverse.2 List.nodup_range)
      (by rw [List.mem_reverse, List.mem_range]; omega)
  stored := by
    intro f hf
    have hfile : tableFile host db.options f.number = f.file := by
      rw [h.flushes.file f hf, h.counter]
      rfl
    refine ⟨?_, h.flushes.bytes f hf⟩
    rw [hfile]
    exact h.stored (fun _ => rfl) (h.flushes.nodup_iff.2 hcount.le) f hf

end DBImpl

open DBImpl

/-- Overlay invariant: as long as the counter does not wrap around, the memtable
over the numbered tables is the map the client has written, and behind `Close`
the tables alone are. -/
theorem overlay_invariant (host : Host) (sst : SstFormat) (options : Options)
    (hnum : options.lisstNum = 0) (ops : List Op) (hfree : ∀ w ∈ writes ops, w.NulFree)
    {db : DBImpl} (hrun : run (step host sst) (openDB options Disk.empty) ops = .ok db)
    (hcount : db.flushes.length < 2 ^ 32) : OverlayHolds host sst db (writes ops) := by
  rcases run_flushLog hrun with ⟨hlog, hopen, -⟩
  rcases run_layers hrun with ⟨mem, cached, h, hmap⟩
  rw [lastStored_of_nulFree hfree] at hmap
  constructor
  · intro key hkey
    refine ⟨mem key, by rw [h.memTable.get, cString_eq_self hkey], ?_⟩
    rw [hlog.tables_eq hnum hcount, ← overlay_cons, ← hmap, layers]
  · exact hlog.tablesWritten hnum hcount
  · intro db' status entries hclose hentries hsize hcount'
    rcases close_cases h hclose with ⟨rfl, hidle⟩ | ⟨-, db₁, f, hflush, rfl⟩
    · -- nothing was flushed, because there was nothing in the memtable
      rcases h.memTable.entries with ⟨l, hl, -, hentriesMap, hgetSize, -⟩
      obtain rfl : entries = l := Except.ok.inj (hentries.symm.trans hl)
      have hnil : entries = [] := by
        rcases hidle with hclosed | hle
        · rw [hopen] at hclosed
          cases hclosed
        · rw [hgetSize, asInt32_of_lt (Int.natCast_nonneg _) (by exact_mod_cast hsize)] at hle
          exact List.eq_nil_of_length_eq_zero (by omega)
      refine ⟨?_, hlog.tablesWritten hnum hcount⟩
      intro key _
      rw [hnil, toMap_nil] at hentriesMap
      rw [hlog.tables_eq hnum hcount, ← hmap, layers, ← hentriesMap, overlay_push_empty]
    · have hlog' : FlushLog host sst options (fun _ => none) { db₁ with closed := true } :=
        { hflush.flushLog hlog with }
      refine ⟨?_, hlog'.tablesWritten hnum hcount'⟩
      intro key _
      rw [hlog'.tables_eq hnum hcount', ← hmap, ← hflush.layers, layers, overlay_push_empty]

/-- One table and a memtable with a tombstone on top of it. -/
theorem overlay_invariant_flushed :
    ∃ db, run (step plainHost plainFormat)
        (openDB (tinyOptions (ascii "db") (by decide)) Disk.empty)
        [.write (.put [] (ascii "a") (ascii "x")), .write (.delete [] (ascii "a"))] = .ok db ∧
      OverlayHolds plainHost plainFormat db
        [.put [] (ascii "a") (ascii "x"), .delete [] (ascii "a")] :=
  ⟨_, rfl, overlay_invariant plainHost plainFormat (tinyOptions (ascii "db") (by decide)) rfl
    [.write (.put [] (ascii "a") (ascii "x")), .write (.delete [] (ascii "a"))]
    (by decide) rfl (by decide)⟩

/-! ## The counter wraps around -/

namespace DBImpl

variable {host : Host} {sst : SstFormat} {db : DBImpl} {cached : Bytes → Option Bytes}

/-- A pair of two bytes fills the memtable of `tinyOptions`. -/
theorem full_of_pair {a b : Bytes} (ha : a.length = 1) (hb : b.length = 1)
    (h : Tracks host db (Function.update (fun _ => none) a (some b)) cached)
    (hmax : db.options.memTableMaxSize = 2) : db.Full := by
  rcases h.memTable.entries with ⟨l, -, hsorted, hmap, -, husage⟩
  have hnodup := nodup_keys_of_sorted hsorted
  have hpair : toMap l = toMap [(a, b)] := by
    rw [hmap]
    funext k
    rw [toMap_cons, Function.update_apply, toMap_nil]
  obtain rfl : l = [(a, b)] :=
    List.perm_singleton.1 (perm_of_toMap_eq hnodup (by simp) hpair)
  rw [Full, husage, hmax]
  simp [ha, hb, asSizeT]

/-- The state behind `n` flushes of a pair. -/
structure Flushed (storageDir : Bytes) (hdir : 0 ∉ storageDir) (n : ℕ) (db : DBImpl) : Prop where
  tracks : ∃ cached, Tracks plainHost db (fun _ => none) cached
  closed : db.closed = false
  options : db.options = { tinyOptions storageDir hdir with lisstNum := UInt32.ofNat n }

/-- One more pair, one more flush. -/
theorem Flushed.put {storageDir : Bytes} {hdir : 0 ∉ storageDir} {n : ℕ} {db : DBImpl}
    (h : Flushed storageDir hdir n db) (hne : storageDir ≠ []) :
    ∃ db', db.step plainHost plainFormat (.write (.put [] (ascii "a") (ascii "b"))) = .ok db' ∧
      Flushed storageDir hdir (n + 1) db' := by
  rcases h.tracks with ⟨cached, htracks⟩
  have hstorage : db.options.storageDir ≠ [] := by
    rw [h.options]
    exact hne
  rcases write_progress plainFormat_total htracks h.closed hstorage (fun k v hk => by cases hk)
    (w := .put [] (ascii "a") (ascii "b")) (by decide) (by decide) with ⟨db', hrun⟩
  refine ⟨db', hrun, ?_⟩
  rcases write_cases htracks hrun with ⟨db₁, cached₁, -, h₁, -, hsame, hflush⟩
  -- the pair alone fills the memtable
  have hfull : db₁.Full := by
    refine full_of_pair (a := ascii "a") (b := ascii "b") rfl rfl h₁ ?_
    rw [hsame.options, h.options]
    rfl
  rcases hflush with ⟨hnot, -⟩ | ⟨-, f, hf, hnew⟩
  · exact absurd hfull hnot
  · refine ⟨⟨cached₁, hf.tracks hnew h₁⟩, ?_, ?_⟩
    · rw [hf.closed, hsame.closed, h.closed]
    · rw [hf.options, hsame.options, h.options]
      simp

theorem run_flushed {storageDir : Bytes} (hdir : 0 ∉ storageDir) (hne : storageDir ≠ []) (n : ℕ) :
    ∃ db, run (step plainHost plainFormat) (openDB (tinyOptions storageDir hdir) Disk.empty)
        (List.replicate n (.write (.put [] (ascii "a") (ascii "b")))) = .ok db ∧
      Flushed storageDir hdir n db := by
  induction n with
  | zero =>
      exact ⟨_, rfl, ⟨_, openDB_tracks plainHost _ Disk.empty⟩, rfl, rfl⟩
  | succ n ih =>
      rcases ih with ⟨db, hrun, h⟩
      rcases h.put hne with ⟨db', hstep, h'⟩
      rw [List.replicate_succ']
      exact ⟨db', run_concat_ok.2 ⟨db, hrun, hstep⟩, h'⟩

theorem lastWrite_replicate (w : Write) {n : ℕ} (hn : 0 < n) :
    lastWrite (writes (List.replicate n (.write w))) w.key = some w.value := by
  rcases Nat.exists_eq_succ_of_ne_zero hn.ne' with ⟨n, rfl⟩
  rw [List.replicate_succ', writes_concat_write, lastWrite_concat, if_pos rfl]

/-- When the counter is at zero again, no table is left to read. -/
theorem not_overlay_of_wrap {n : ℕ} (hn : 0 < n) (hwrap : UInt32.ofNat n = 0) :
    ∃ db, run (step plainHost plainFormat) (openDB (tinyOptions (ascii "db") (by decide)) Disk.empty)
        (List.replicate n (.write (.put [] (ascii "a") (ascii "b")))) = .ok db ∧
      ¬ OverlayHolds plainHost plainFormat db
        (writes (List.replicate n (.write (.put [] (ascii "a") (ascii "b"))))) := by
  have hdir : (0 : Byte) ∉ ascii "db" := by decide
  rcases run_flushed hdir (by decide) n with ⟨db, hrun, h⟩
  refine ⟨db, hrun, ?_⟩
  intro hoverlay
  rcases h.tracks with ⟨cached, htracks⟩
  rcases hoverlay.overlay (ascii "a") (by decide) with ⟨v, hget, hv⟩
  have hnone : v = none := Except.ok.inj (hget.symm.trans (htracks.memTable.get (ascii "a")))
  have htables : db.tables = [] := by
    rw [tables, h.options, hwrap]
    rfl
  have hlast := lastWrite_replicate (.put [] (ascii "a") (ascii "b")) hn
  simp only [Write.key, Write.value] at hlast
  rw [hnone, htables, overlay_nil, hlast] at hv
  cases hv

end DBImpl

/-- After `2 ^ 32` flushes `LISST_NUM` is 0 and the overlay is empty. -/
theorem overlay_lost_at_wrap :
    ∃ db, run (step plainHost plainFormat) (openDB (tinyOptions (ascii "db") (by decide)) Disk.empty)
        (List.replicate (2 ^ 32) (.write (.put [] (ascii "a") (ascii "b")))) = .ok db ∧
      ¬ OverlayHolds plainHost plainFormat db
        (writes (List.replicate (2 ^ 32) (.write (.put [] (ascii "a") (ascii "b"))))) :=
  not_overlay_of_wrap (by norm_num) (by decide)

end Smallkv
