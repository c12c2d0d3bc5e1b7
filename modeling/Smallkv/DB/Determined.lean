import Smallkv.DB.Closing
import Smallkv.Lib.Unwinding

/-!
# DB.Determined — what the disk depends on

Tables and log are made of the keys and values that were written, in their
order, and of nothing else: no `Get`, no coin flip, not the size of the cache and
not what the log held before. Two databases with the same tables in front of
them mirror each other through any calls, closings and new starts that write the
same (`Mirrors`), so one of them cannot fail where the other goes on.
-/

namespace Smallkv

open Fallible Assoc

/-- Equal but for the size of the cache. -/
structure Options.Alike (o o' : Options) : Prop where
  storageDir : o.storageDir = o'.storageDir
  memTableMaxSize : o.memTableMaxSize = o'.memTableMaxSize
  lisstNum : o.lisstNum = o'.lisstNum

namespace DBImpl

variable (host : Host) (sst : SstFormat)

/-- What happens to a database. -/
inductive Event where
  | call (c : Call)
  /-- between two calls the process ends, in whatever way, and is started again -/
  | restart (cacheSize : ℕ)

/-- What the disk is to depend on. -/
inductive Shown where
  | write (key value : Bytes)
  | close
  | restart

def Event.shown : Event → Option Shown
  | .call (.op (.write w)) => some (.write w.key w.value)
  | .call (.op (.get _)) => none
  | .call .close => some .close
  | .restart _ => some .restart

/-- One event of a database that is opened with these options each time. -/
def event (options : Options) (db : DBImpl) : Event → Exec DBImpl
  | .call c => db.call host sst c
  | .restart cacheSize => pure (openDB { options with cacheSize := cacheSize } db.disk)

/-- Two databases that a writer cannot tell apart, on logs that began as these. -/
structure Alike (wal₁ wal₂ : Bytes) (db₁ db₂ : DBImpl) : Prop where
  log : ∃ logged, db₁.walWriter.file = wal₁ ++ logged ∧ db₂.walWriter.file = wal₂ ++ logged
  buffers : db₁.walWriter.buffer = [] ∧ db₂.walWriter.buffer = []
  entries : db₁.memTable.entries = db₂.memTable.entries
  lookups : ∀ key, db₁.memTable.get key = db₂.memTable.get key
  options : db₁.options.Alike db₂.options
  files : db₁.files = db₂.files
  flushes : db₁.flushes = db₂.flushes
  closed : db₁.closed = db₂.closed

/-- `Alike`, and the memtables stand for one map. -/
structure Mirrors (wal₁ wal₂ : Bytes) (db₁ db₂ : DBImpl) : Prop where
  tracks : ∃ mem cached₁ cached₂, Tracks host db₁ mem cached₁ ∧ Tracks host db₂ mem cached₂
  log : ∃ logged, db₁.walWriter.file = wal₁ ++ logged ∧ db₂.walWriter.file = wal₂ ++ logged
  buffers : db₁.walWriter.buffer = [] ∧ db₂.walWriter.buffer = []
  options : db₁.options.Alike db₂.options
  files : db₁.files = db₂.files
  flushes : db₁.flushes = db₂.flushes
  closed : db₁.closed = db₂.closed

variable {host sst} {wal₁ wal₂ : Bytes} {db₁ db₂ db₁' db₂' : DBImpl}

/-! ## The parts -/

/-- All that is asked of a memtable in a write or a flush is known from its map. -/
theorem memTables_alike {t₁ t₂ : MemTable} {m : Bytes → Option Bytes} (h₁ : t₁.Represents m)
    (h₂ : t₂.Represents m) :
    t₁.entries = t₂.entries ∧ t₁.getSize = t₂.getSize ∧ t₁.getMemUsage = t₂.getMemUsage := by
  rcases h₁.entries with ⟨l₁, hl₁, hsorted₁, hmap₁, hsize₁, husage₁⟩
  rcases h₂.entries with ⟨l₂, hl₂, hsorted₂, hmap₂, hsize₂, husage₂⟩
  obtain rfl : l₁ = l₂ := eq_of_toMap_eq hsorted₁ hsorted₂ (hmap₁.trans hmap₂.symm)
  exact ⟨hl₁.trans hl₂.symm, hsize₁.trans hsize₂.symm, husage₁.trans husage₂.symm⟩

theorem Mirrors.alike (h : Mirrors host wal₁ wal₂ db₁ db₂) : Alike wal₁ wal₂ db₁ db₂ := by
  rcases h.tracks with ⟨mem, cached₁, cached₂, h₁, h₂⟩
  exact
    { log := h.log
      buffers := h.buffers
      entries := (memTables_alike h₁.memTable h₂.memTable).1
      lookups := fun key => (h₁.memTable.get key).trans (h₂.memTable.get key).symm
      options := h.options
      files := h.files
      flushes := h.flushes
      closed := h.closed }

/-- A log is appended to any file alike. -/
theorem addLog_mirrored {crc32c : Bytes → UInt32} {w w' : FileWriter} {log : Bytes}
    (h : addLog crc32c w log = .ok w') (hw : w.buffer = []) (u : FileWriter) (hu : u.buffer = []) :
    ∃ u' bytes, addLog crc32c u log = .ok u' ∧ u'.buffer = [] ∧ w'.buffer = [] ∧
      w'.file = w.file ++ bytes ∧ u'.file = u.file ++ bytes := by
  have hprogress : ∃ u', addLog crc32c u log = .ok u' := by
    rcases bind_eq_ok.1 h with ⟨w₁, -, hrun⟩
    rcases bind_eq_ok.1 hrun with ⟨w₂, hdata, -⟩
    rcases u.append_spec (encodeFixed32 (crc32c log).toNat ++ encodeFixed32 log.length) false with
      ⟨u₁, hheader, -, -⟩
    have hlen8 : ((encodeFixed32 (crc32c log).toNat ++ encodeFixed32 log.length).length : ℤ) = 8 := by
      simp
    rw [hlen8] at hheader
    -- whether the length is accepted does not depend on the writer
    have hdata' : ∃ u₂, u₁.append log (asInt32 log.length) true = .ok u₂ := by
      unfold FileWriter.append at hdata ⊢
      split
      · exact ⟨_, rfl⟩
      · rename_i hne
        rw [if_neg hne] at hdata
        rcases bind_eq_ok.1 hdata with ⟨_, hbounds, -⟩
        rcases u₁.takeIn_spec (log.take (asInt32 log.length).toNat) with ⟨u₂, htake, -⟩
        rw [require_of (require_eq_ok.1 hbounds), ok_bind, htake, ok_bind]
        exact ⟨_, rfl⟩
    rcases hdata' with ⟨u₂, hdata'⟩
    exact ⟨u₂.sync, by rw [addLog, hheader, ok_bind, hdata', ok_bind, pure_eq_ok]⟩
  rcases hprogress with ⟨u', hu'⟩
  rcases addLog_ok h with ⟨hbuffer, hfile⟩
  rcases addLog_ok hu' with ⟨hbuffer', hfile'⟩
  refine ⟨u', encodeFixed32 (crc32c log).toNat ++ encodeFixed32 log.length ++
    log.take (asInt32 log.length).toNat, hu', hbuffer', hbuffer, ?_, ?_⟩
  · rw [hfile, FileWriter.stream, hw, List.append_nil, List.append_assoc]
  · rw [hfile', FileWriter.stream, hu, List.append_nil, List.append_assoc]

theorem walAppend_mirrored {crc32c : Bytes → UInt32} {w w' : FileWriter} {key value : Bytes}
    (h : walAppend crc32c w key value = .ok w') (hw : w.buffer = []) (u : FileWriter)
    (hu : u.buffer = []) :
    ∃ u' bytes, walAppend crc32c u key value = .ok u' ∧ u'.buffer = [] ∧ w'.buffer = [] ∧
      w'.file = w.file ++ bytes ∧ u'.file = u.file ++ bytes := by
  rcases bind_eq_ok.1 h with ⟨buf, hbuf, h⟩
  rcases bind_eq_ok.1 h with ⟨log, hlog, h⟩
  rcases addLog_mirrored h hw u hu with ⟨u', bytes, hu', hrest⟩
  exact ⟨u', bytes, by rw [walAppend, hbuf, ok_bind, hlog, ok_bind, hu'], hrest⟩

/-! ## Flushing -/

theorem Mirrors.full_iff (h : Mirrors host wal₁ wal₂ db₁ db₂) : db₁.Full ↔ db₂.Full := by
  rcases h.tracks with ⟨mem, cached₁, cached₂, h₁, h₂⟩
  rw [Full, Full, (memTables_alike h₁.memTable h₂.memTable).2.2, h.options.memTableMaxSize]

theorem Mirrors.memTableToSST (h : Mirrors host wal₁ wal₂ db₁ db₂)
    (hrun : db₁.memTableToSST host sst = .ok db₁') :
    ∃ db₂', db₂.memTableToSST host sst = .ok db₂' ∧ Mirrors host wal₁ wal₂ db₁' db₂' := by
  rcases h.tracks with ⟨mem, cached₁, cached₂, h₁, h₂⟩
  rcases memTables_alike h₁.memTable h₂.memTable with ⟨hentries, hsize, -⟩
  have hpath : writePath db₁.options db₁.options.lisstNum =
      writePath db₂.options db₂.options.lisstNum := by
    rw [writePath, writePath, h.options.storageDir, h.options.lisstNum]
  have hprogress : ∃ db₂', db₂.memTableToSST host sst = .ok db₂' := by
    rcases bind_eq_ok.1 hrun with ⟨content, hopen, hrun⟩
    rcases bind_eq_ok.1 hrun with ⟨entries, hread, hrun⟩
    rcases bind_eq_ok.1 hrun with ⟨bytes, hbuild, -⟩
    rw [hpath, h.files] at hopen
    rw [hentries] at hread
    rw [hsize] at hbuild
    simp only [DBImpl.memTableToSST, hopen, hread, hbuild, ok_bind, pure_eq_ok, Except.ok.injEq,
      exists_eq']
  rcases hprogress with ⟨db₂', hrun₂⟩
  rcases memTableToSST_ok h₁ hrun with ⟨f₁, hf₁, hmem₁⟩
  rcases memTableToSST_ok h₂ hrun₂ with ⟨f₂, hf₂, hmem₂⟩
  -- one flush is the other
  have hfile : f₁.file = f₂.file := by rw [hf₁.file, hf₂.file, hpath]
  have hnumber : f₁.number = f₂.number := by rw [hf₁.number, hf₂.number, h.options.lisstNum]
  have hpairs : f₁.entries = f₂.entries :=
    eq_of_toMap_eq hf₁.sorted hf₂.sorted (hf₁.entries.trans hf₂.entries.symm)
  have hbytes : f₁.bytes = f₂.bytes := by
    have hbuild := hf₁.bytes
    rw [hpairs, hf₂.bytes] at hbuild
    exact (Except.ok.inj hbuild).symm
  have hflush : f₁ = f₂ := by
    cases f₁
    cases f₂
    cases hfile
    cases hnumber
    cases hpairs
    cases hbytes
    rfl
  refine ⟨db₂', hrun₂, ?_⟩
  exact
    { tracks := ⟨mem, cached₁, cached₂,
        ⟨hmem₁ ▸ h₁.memTable, by rw [hf₁.cache, hf₁.options]; exact h₁.cache⟩,
        ⟨hmem₂ ▸ h₂.memTable, by rw [hf₂.cache, hf₂.options]; exact h₂.cache⟩⟩
      log := by rw [hf₁.walWriter, hf₂.walWriter]; exact h.log
      buffers := by rw [hf₁.walWriter, hf₂.walWriter]; exact h.buffers
      options := by
        rw [hf₁.options, hf₂.options]
        exact ⟨h.options.storageDir, h.options.memTableMaxSize, by simp only [h.options.lisstNum]⟩
      files := by rw [hf₁.files, hf₂.files, hflush, h.files]
      flushes := by rw [hf₁.flushes, hf₂.flushes, hflush, h.flushes]
      closed := by rw [hf₁.closed, hf₂.closed, h.closed] }

theorem Mirrors.flushIfFull (h : Mirrors host wal₁ wal₂ db₁ db₂)
    (hrun : db₁.flushIfFull host sst = .ok db₁') :
    ∃ db₂', db₂.flushIfFull host sst = .ok db₂' ∧ Mirrors host wal₁ wal₂ db₁' db₂' := by
  have hfull : asSizeT db₁.memTable.getMemUsage ≥ db₁.options.memTableMaxSize ↔
      asSizeT db₂.memTable.getMemUsage ≥ db₂.options.memTableMaxSize := h.full_iff
  unfold DBImpl.flushIfFull at hrun ⊢
  split at hrun
  · rename_i hyes
    rcases bind_eq_ok.1 hrun with ⟨db₁₁, hflush, hrun⟩
    cases hrun
    rcases h.memTableToSST hflush with ⟨db₂₁, hflush₂, h'⟩
    rcases h'.tracks with ⟨mem, cached₁, cached₂, h₁, h₂⟩
    refine ⟨{ db₂₁ with memTable := MemTable.new }, ?_, { h' with tracks := ?_ }⟩
    · rw [if_pos (hfull.1 hyes), hflush₂, ok_bind, pure_eq_ok]
    · exact ⟨_, cached₁, cached₂, ⟨MemTable.new_represents, h₁.cache⟩,
        ⟨MemTable.new_represents, h₂.cache⟩⟩
  · rename_i hno
    cases hrun
    exact ⟨db₂, by rw [if_neg (mt hfull.2 hno), pure_eq_ok], h⟩

/-! ## Events -/

/-- A write on one side, and one of the same key and value on the other. -/
theorem Mirrors.write (h : Mirrors host wal₁ wal₂ db₁ db₂) {w₁ w₂ : Write}
    (hkey : w₁.key = w₂.key) (hvalue : w₁.value = w₂.value)
    (hrun : db₁.write host sst w₁ = .ok db₁') :
    ∃ db₂', db₂.write host sst w₂ = .ok db₂' ∧ Mirrors host wal₁ wal₂ db₁' db₂' := by
  have hopen := open_of_write_ok hrun
  rw [write_eq_run host sst hopen, Write.stages, run_concat_ok] at hrun
  rcases hrun with ⟨db₁₁, hsteps, hflush⟩
  rcases h.tracks with ⟨mem, cached₁, cached₂, h₁, h₂⟩
  rcases steps_ok h₁ hsteps with ⟨cached₁', hlog₁, h₁', -, hsame₁⟩
  rcases walAppend_mirrored hlog₁ h.buffers.1 db₂.walWriter h.buffers.2 with
    ⟨u, bytes, hlog₂, hu, hw, hfile₁, hfile₂⟩
  rw [hkey, hvalue] at hlog₂
  rcases steps_spec h₂ hlog₂ with ⟨db₂₁, cached₂', hsteps₂, hwriter, h₂', -, hsame₂⟩
  rw [← hkey, ← hvalue] at h₂'
  rcases h.log with ⟨logged, hl₁, hl₂⟩
  have h' : Mirrors host wal₁ wal₂ db₁₁ db₂₁ :=
    { tracks := ⟨_, cached₁', cached₂', h₁', h₂'⟩
      log := ⟨logged ++ bytes, by rw [hfile₁, hl₁, List.append_assoc], by
        rw [hwriter, hfile₂, hl₂, List.append_assoc]⟩
      buffers := ⟨hw, by rw [hwriter, hu]⟩
      options := by rw [hsame₁.options, hsame₂.options]; exact h.options
      files := by rw [hsame₁.files, hsame₂.files, h.files]
      flushes := by rw [hsame₁.flushes, hsame₂.flushes, h.flushes]
      closed := by rw [hsame₁.closed, hsame₂.closed, h.closed] }
  rcases h'.flushIfFull hflush with ⟨db₂', hflush₂, h''⟩
  refine ⟨db₂', ?_, h''⟩
  rw [write_eq_run host sst (h.closed ▸ hopen), Write.stages, run_concat_ok]
  exact ⟨db₂₁, hsteps₂, hflush₂⟩

theorem Mirrors.close (h : Mirrors host wal₁ wal₂ db₁ db₂) {status : DBStatus}
    (hrun : db₁.close host sst = .ok (db₁', status)) :
    ∃ db₂', db₂.close host sst = .ok (db₂', status) ∧ Mirrors host wal₁ wal₂ db₁' db₂' := by
  rcases h.tracks with ⟨mem, cached₁, cached₂, h₁, h₂⟩
  have hsize := (memTables_alike h₁.memTable h₂.memTable).2.1
  unfold DBImpl.close at hrun ⊢
  rw [← h.closed, ← hsize]
  split at hrun
  · rename_i hcond
    rcases bind_eq_ok.1 hrun with ⟨db₁₁, hflush, hrun⟩
    cases hrun
    rcases h.memTableToSST hflush with ⟨db₂₁, hflush₂, h'⟩
    rcases h'.tracks with ⟨mem', cached₁', cached₂', h₁', h₂'⟩
    refine ⟨{ db₂₁ with closed := true }, ?_, { h' with tracks := ?_, closed := rfl }⟩
    · rw [if_pos hcond, hflush₂, ok_bind, pure_eq_ok]
    · exact ⟨mem', cached₁', cached₂', ⟨h₁'.memTable, h₁'.cache⟩, ⟨h₂'.memTable, h₂'.cache⟩⟩
  · rename_i hcond
    cases hrun
    exact ⟨db₂, by rw [if_neg hcond, pure_eq_ok], h⟩

/-- A `Get` may change the cache and nothing else. -/
theorem get_walWriter {key out out' : Bytes} {db db' : DBImpl} {status : DBStatus}
    (hrun : db.get host sst key out = .ok (db', status, out')) : db'.walWriter = db.walWriter := by
  rcases bind_eq_ok.1 hrun with ⟨-, -, hrun⟩
  rcases bind_eq_ok.1 hrun with ⟨⟨db₁, tier⟩, htiers, hrun⟩
  have hfirst : db₁.walWriter = db.walWriter := by
    unfold getTiers at htiers
    split at htiers
    · rcases bind_eq_ok.1 htiers with ⟨⟨cache, node⟩, -, htiers⟩
      rcases bind_eq_ok.1 htiers with ⟨node, -, htiers⟩
      rcases bind_eq_ok.1 htiers with ⟨val, -, htiers⟩
      cases htiers
      rfl
    · rcases bind_eq_ok.1 htiers with ⟨present, -, htiers⟩
      split at htiers
      · rcases bind_eq_ok.1 htiers with ⟨_, -, htiers⟩
        rcases bind_eq_ok.1 htiers with ⟨_, -, htiers⟩
        rcases bind_eq_ok.1 htiers with ⟨val, -, htiers⟩
        cases htiers
        rfl
      · cases htiers
        rfl
  cases tier with
  | some val =>
      cases hrun
      exact hfirst
  | none =>
      rcases bind_eq_ok.1 hrun with ⟨content, -, hrun⟩
      rcases bind_eq_ok.1 hrun with ⟨val, -, hrun⟩
      cases val with
      | none =>
          cases hrun
          exact hfirst
      | some val =>
          rcases bind_eq_ok.1 hrun with ⟨cache, -, hrun⟩
          cases hrun
          exact hfirst

theorem Mirrors.symm (h : Mirrors host wal₁ wal₂ db₁ db₂) : Mirrors host wal₂ wal₁ db₂ db₁ := by
  rcases h.tracks with ⟨mem, cached₁, cached₂, h₁, h₂⟩
  rcases h.log with ⟨logged, hl₁, hl₂⟩
  exact
    { tracks := ⟨mem, cached₂, cached₁, h₂, h₁⟩
      log := ⟨logged, hl₂, hl₁⟩
      buffers := h.buffers.symm
      options := ⟨h.options.storageDir.symm, h.options.memTableMaxSize.symm, h.options.lisstNum.symm⟩
      files := h.files.symm
      flushes := h.flushes.symm
      closed := h.closed.symm }

/-- A `Get` on one side alone. -/
theorem Mirrors.get (h : Mirrors host wal₁ wal₂ db₁ db₂) {key out out' : Bytes}
    {status : DBStatus} (hrun : db₁.get host sst key out = .ok (db₁', status, out')) :
    Mirrors host wal₁ wal₂ db₁' db₂ := by
  rcases h.tracks with ⟨mem, cached₁, cached₂, h₁, h₂⟩
  rcases get_cases h₁ hrun with ⟨hsame, hcases⟩
  have hwriter := get_walWriter hrun
  have htracks : ∃ cached, Tracks host db₁' mem cached := by
    rcases hcases with ⟨h₁', -⟩ | ⟨-, -, -, -, ⟨-, h₁', -⟩ | ⟨val, cached', -, h₁', -⟩⟩
    · exact ⟨cached₁, h₁'⟩
    · exact ⟨cached₁, h₁'⟩
    · exact ⟨cached', h₁'⟩
  rcases htracks with ⟨cached₁', h₁'⟩
  exact
    { tracks := ⟨mem, cached₁', cached₂, h₁', h₂⟩
      log := by rw [hwriter]; exact h.log
      buffers := by rw [hwriter]; exact h.buffers
      options := by rw [hsame.options]; exact h.options
      files := by rw [hsame.files, h.files]
      flushes := by rw [hsame.flushes, h.flushes]
      closed := by rw [hsame.closed, h.closed] }

/-- Both start again, each with a cache of its own. -/
theorem Mirrors.restart (h : Mirrors host wal₁ wal₂ db₁ db₂) {o₁ o₂ : Options}
    (hoptions : o₁.Alike o₂) (c₁ c₂ : ℕ) :
    Mirrors host wal₁ wal₂ (openDB { o₁ with cacheSize := c₁ } db₁.disk)
      (openDB { o₂ with cacheSize := c₂ } db₂.disk) where
  tracks := ⟨_, _, _, openDB_tracks host _ _, openDB_tracks host _ _⟩
  log := h.log
  buffers := ⟨rfl, rfl⟩
  options := ⟨hoptions.storageDir, hoptions.memTableMaxSize, hoptions.lisstNum⟩
  files := h.files
  flushes := rfl
  closed := rfl

theorem openDB_mirrors {o₁ o₂ : Options} (hoptions : o₁.Alike o₂) {disk₁ disk₂ : Disk}
    (hfiles : disk₁.files = disk₂.files) :
    Mirrors host disk₁.wal disk₂.wal (openDB o₁ disk₁) (openDB o₂ disk₂) where
  tracks := ⟨_, _, _, openDB_tracks host o₁ disk₁, openDB_tracks host o₂ disk₂⟩
  log := ⟨[], (List.append_nil _).symm, (List.append_nil _).symm⟩
  buffers := ⟨rfl, rfl⟩
  options := hoptions
  files := hfiles
  flushes := rfl
  closed := rfl

theorem shown_write {e : Event} {key value : Bytes} (h : e.shown = some (.write key value)) :
    ∃ w, e = .call (.op (.write w)) ∧ w.key = key ∧ w.value = value := by
  cases e with
  | restart cacheSize => cases h
  | call c =>
      cases c with
      | close => cases h
      | op op =>
          cases op with
          | get key => cases h
          | write w =>
              cases h
              exact ⟨w, rfl, rfl, rfl⟩

theorem shown_close {e : Event} (h : e.shown = some .close) : e = .call .close := by
  cases e with
  | restart cacheSize => cases h
  | call c =>
      cases c with
      | close => rfl
      | op op =>
          cases op with
          | get key => cases h
          | write w => cases h

theorem shown_restart {e : Event} (h : e.shown = some .restart) :
    ∃ cacheSize, e = .restart cacheSize := by
  cases e with
  | restart cacheSize => exact ⟨cacheSize, rfl⟩
  | call c =>
      cases c with
      | close => cases h
      | op op =>
          cases op with
          | get key => cases h
          | write w => cases h

/-- An event that is not shown is a `Get`. -/
theorem mirrors_hidden (h : Mirrors host wal₁ wal₂ db₁ db₂) {options : Options} {e : Event}
    (hhidden : e.shown = none) (hrun : db₁.event host sst options e = .ok db₁') :
    Mirrors host wal₁ wal₂ db₁' db₂ := by
  cases e with
  | restart cacheSize => cases hhidden
  | call c =>
      cases c with
      | close => cases hhidden
      | op op =>
          cases op with
          | write w => cases hhidden
          | get key =>
              rcases bind_eq_ok.1 hrun with ⟨⟨db, status, out⟩, hget, hrun⟩
              cases hrun
              exact h.get hget

theorem mirrors_shown (h : Mirrors host wal₁ wal₂ db₁ db₂) {o₁ o₂ : Options}
    (hoptions : o₁.Alike o₂) {e₁ e₂ : Event} {shown : Shown} (hshown₁ : e₁.shown = some shown)
    (hshown₂ : e₂.shown = some shown) (hrun : db₁.event host sst o₁ e₁ = .ok db₁') :
    ∃ db₂', db₂.event host sst o₂ e₂ = .ok db₂' ∧ Mirrors host wal₁ wal₂ db₁' db₂' := by
  cases shown with
  | write key value =>
      rcases shown_write hshown₁ with ⟨w₁, rfl, rfl, rfl⟩
      rcases shown_write hshown₂ with ⟨w₂, rfl, hkey, hvalue⟩
      exact h.write hkey.symm hvalue.symm hrun
  | close =>
      obtain rfl := shown_close hshown₁
      obtain rfl := shown_close hshown₂
      rcases bind_eq_ok.1 hrun with ⟨⟨db, status⟩, hclose, hrun⟩
      cases hrun
      rcases h.close hclose with ⟨db₂', hclose₂, h'⟩
      refine ⟨db₂', ?_, h'⟩
      simp only [event, call, hclose₂, ok_bind, pure_eq_ok]
  | restart =>
      rcases shown_restart hshown₁ with ⟨c₁, rfl⟩
      rcases shown_restart hshown₂ with ⟨c₂, rfl⟩
      cases hrun
      exact ⟨_, rfl, h.restart hoptions c₁ c₂⟩

theorem event_unwinds {o₁ o₂ : Options} (hoptions : o₁.Alike o₂) :
    Unwinds Event.shown (event host sst o₁) (event host sst o₂) (Mirrors host wal₁ wal₂) where
  left h hhidden hrun := mirrors_hidden h hhidden hrun
  right h hhidden hrun := (mirrors_hidden h.symm hhidden hrun).symm
  both h hshown₁ hshown₂ hrun := mirrors_shown h hoptions hshown₁ hshown₂ hrun

end DBImpl

open DBImpl

/-- Whatever ran on one database can be run on any other that is opened with the
same options, but for the size of its cache, and has the same tables, whatever is in
its log: all `Get`s may be left out or others made, if these return, coins may fall
differently, a deletion may be a `Put` of the empty value. The databases stay alike, and
so do their disks. -/
theorem disk_determined (host : Host) (sst : SstFormat) (o₁ o₂ : Options)
    (hoptions : o₁.Alike o₂) (disk₁ disk₂ : Disk) (hfiles : disk₁.files = disk₂.files)
    (events₁ events₂ : List Event)
    (hsame : events₁.filterMap Event.shown = events₂.filterMap Event.shown) {db₁ : DBImpl}
    (hrun₁ : run (event host sst o₁) (openDB o₁ disk₁) events₁ = .ok db₁) :
    (∃ db₂, run (event host sst o₂) (openDB o₂ disk₂)
        (events₂.filter fun e => e.shown.isSome) = .ok db₂ ∧
      Alike disk₁.wal disk₂.wal db₁ db₂) ∧
    ∀ db₂, run (event host sst o₂) (openDB o₂ disk₂) events₂ = .ok db₂ →
      Alike disk₁.wal disk₂.wal db₁ db₂ := by
  have hunwinds : Unwinds Event.shown (event host sst o₁) (event host sst o₂)
      (Mirrors host disk₁.wal disk₂.wal) := event_unwinds hoptions
  have hopen : Mirrors host disk₁.wal disk₂.wal (openDB o₁ disk₁) (openDB o₂ disk₂) :=
    openDB_mirrors hoptions hfiles
  constructor
  · have hshow : ∀ e ∈ events₂.filter fun e => e.shown.isSome, e.shown.isSome := by
      intro e he
      exact (List.mem_filter.1 he).2
    have hfiltered : events₁.filterMap Event.shown =
        (events₂.filter fun e => e.shown.isSome).filterMap Event.shown := by
      rw [hsame, List.filterMap_filter]
      apply List.filterMap_congr
      intro e _
      cases e.shown <;> rfl
    rcases hunwinds.follow hopen hrun₁ hshow hfiltered with ⟨db₂, hrun₂, h⟩
    exact ⟨db₂, hrun₂, h.alike⟩
  · intro db₂ hrun₂
    exact (hunwinds.agree hopen hrun₁ hrun₂ hsame).alike

/-- A pair with an empty value is put, read, and put again behind a new start. -/
def emptyPuts : List Event :=
  [.call (.op (.write (.put [] (ascii "a") []))), .call (.op (.get (ascii "a"))), .restart 1,
    .call (.op (.write (.put [true] (ascii "a") [])))]

/-- The key is deleted twice. -/
def deletions : List Event :=
  [.call (.op (.write (.delete [] (ascii "a")))), .restart 0,
    .call (.op (.write (.delete [] (ascii "a"))))]

/-- The second database has no cache and a log with something in it. -/
theorem disk_determined_deletions :
    ∃ db₁, run (event plainHost plainFormat Options.default) (openDB Options.default Disk.empty)
        emptyPuts = .ok db₁ ∧
      (∃ db₂, run (event plainHost plainFormat { Options.default with cacheSize := 0 })
          (openDB { Options.default with cacheSize := 0 } ⟨ascii "log", fun _ => none⟩)
          (deletions.filter fun e => e.shown.isSome) = .ok db₂ ∧
        Alike [] (ascii "log") db₁ db₂) ∧
      ∀ db₂, run (event plainHost plainFormat { Options.default with cacheSize := 0 })
          (openDB { Options.default with cacheSize := 0 } ⟨ascii "log", fun _ => none⟩)
          deletions = .ok db₂ →
        Alike [] (ascii "log") db₁ db₂ :=
  ⟨_, rfl, disk_determined plainHost plainFormat Options.default
    { Options.default with cacheSize := 0 } ⟨rfl, rfl, rfl⟩ Disk.empty
    ⟨ascii "log", fun _ => none⟩ rfl emptyPuts deletions rfl rfl⟩

end Smallkv
