import Smallkv.DB.Stages

/-!
# DB.Tiers — what one call does to the tiers

`Tracks` relates a database to the maps its memtable and its cache stand for.
Each step of a call is described once, by what it makes of the two maps and of
the tables; `steps_ok`, `write_cases` and `get_cases` put the steps together
and say everything a call can do.
-/

namespace Smallkv

open Fallible Assoc

namespace DBImpl

variable (host : Host) (sst : SstFormat)

/-- The memtable stands for `mem` and the cache for `cached`. -/
structure Tracks (db : DBImpl) (mem cached : Bytes → Option Bytes) : Prop where
  memTable : db.memTable.Represents mem
  cache : db.cache.Represents host.hash db.options.cacheSize cached

theorem openDB_tracks (options : Options) (disk : Disk) :
    Tracks host (openDB options disk) (fun _ => none) fun _ => none where
  memTable := MemTable.new_represents
  cache := Cache.new_represents host.hash options.cacheSize

variable {host sst} {db db' : DBImpl} {mem cached : Bytes → Option Bytes}

/-! ## The steps of a write -/

theorem writeLog_ok {key value : Bytes} (hrun : db.writeLog host key value = .ok db') :
    ∃ w, walAppend host.crc32c db.walWriter key value = .ok w ∧
      db' = { db with walWriter := w } := by
  rcases bind_eq_ok.1 hrun with ⟨w, hw, h⟩
  cases h
  exact ⟨w, hw, rfl⟩

/-- Whether the key is there or not, `Put` leaves it with the value. -/
theorem putMemTable_spec (h : Tracks host db mem cached) (flips : List Bool) (key value : Bytes) :
    ∃ t, db.putMemTable flips key value = .ok { db with memTable := t } ∧
      t.Represents (Function.update mem (cString key) (some (cString value))) := by
  cases hkey : mem (cString key) with
  | none =>
      rcases h.memTable.insert flips .kAdd key value with ⟨t, hrun, ht⟩
      rw [MemTable.writeMap, insertMap_of_none hkey] at ht
      refine ⟨t, ?_, ht⟩
      simp [putMemTable, h.memTable.contains, hkey, MemTable.add, hrun]
  | some v =>
      rcases h.memTable.insert flips .kUpdate key value with ⟨t, hrun, ht⟩
      refine ⟨t, ?_, ht⟩
      simp [putMemTable, h.memTable.contains, hkey, MemTable.update, hrun]

/-- Whether the key is there or not, `Delete` leaves it with a tombstone. -/
theorem deleteMemTable_spec (h : Tracks host db mem cached) (flips : List Bool) (key : Bytes) :
    ∃ t, db.deleteMemTable flips key = .ok { db with memTable := t } ∧
      t.Represents (Function.update mem (cString key) (some [])) := by
  cases hkey : mem (cString key) with
  | none =>
      rcases h.memTable.insert flips .kAdd key [] with ⟨t, hrun, ht⟩
      rw [MemTable.writeMap, insertMap_of_none hkey] at ht
      refine ⟨t, ?_, ht⟩
      simp [deleteMemTable, h.memTable.contains, hkey, MemTable.add, hrun]
  | some v =>
      rcases h.memTable.insert flips .kDeletion key [] with ⟨t, hrun, ht⟩
      refine ⟨t, ?_, ht⟩
      simp [deleteMemTable, h.memTable.contains, hkey, MemTable.delete, hrun]

/-- What `cache->insert` makes of the cache: the pair is put in unless the key
is there, and other keys may be lost. -/
structure CacheInsert (cap : ℕ) (key value : Bytes) (cached cached' : Bytes → Option Bytes) :
    Prop where
  submap : Submap cached' (insertMap cached key value)
  absent : cached key = none → 0 < cap → cached' key = some value
  present : cached key ≠ none → cached' = cached

theorem putCache_spec (h : Tracks host db mem cached) (key value : Bytes) :
    ∃ c cached', db.putCache host key value = .ok { db with cache := c } ∧
      c.Represents host.hash db.options.cacheSize cached' ∧
      CacheInsert db.options.cacheSize (cString key) (cString value) cached cached' := by
  rcases h.cache.insert (cString key) (cString value) with ⟨c, cached', hrun, hc, h1, h2, h3⟩
  exact ⟨c, cached', by simp [putCache, hrun], hc, h1, h2, h3⟩

theorem eraseCache_spec (h : Tracks host db mem cached) (key : Bytes) :
    ∃ c, db.eraseCache host key = .ok { db with cache := c } ∧
      c.Represents host.hash db.options.cacheSize (Function.update cached (cString key) none) := by
  rcases h.cache.erase (cString key) with ⟨c, hrun, hc⟩
  exact ⟨c, by simp [eraseCache, hrun], hc⟩

/-! ## Flushing -/

/-- A flush: the table, numbered by the counter, holds the pairs of the memtable
in order, and goes behind whatever its file holds. -/
structure FlushStep (host : Host) (sst : SstFormat) (db db' : DBImpl)
    (mem : Bytes → Option Bytes) (f : Flush) : Prop where
  number : f.number = db.options.lisstNum
  made : db.files f.file = none → dirPath (writePath db.options db.options.lisstNum) ≠ []
  file : f.file = resolve host.cwd (writePath db.options db.options.lisstNum)
  sorted : f.entries.Pairwise fun a b => a.1 < b.1
  entries : toMap f.entries = mem
  bytes : sst.build (asInt32 f.entries.length) f.entries = .ok f.bytes
  options : db'.options = { db.options with lisstNum := db.options.lisstNum + 1 }
  files : db'.files =
    Function.update db.files f.file (some ((db.files f.file).getD [] ++ f.bytes))
  flushes : db'.flushes = f :: db.flushes
  walWriter : db'.walWriter = db.walWriter
  cache : db'.cache = db.cache
  closed : db'.closed = db.closed

theorem openForAppend_ok {files : FileId → Option Bytes} {cwd : FileId} {path content : Bytes}
    (h : openForAppend files cwd path = .ok content) :
    content = (files (resolve cwd path)).getD [] ∧
      (files (resolve cwd path) = none → dirPath path ≠ []) := by
  unfold openForAppend at h
  cases hfile : files (resolve cwd path) with
  | some old =>
      rw [hfile] at h
      cases h
      exact ⟨rfl, fun hnone => by cases hnone⟩
  | none =>
      rw [hfile] at h
      rcases bind_eq_ok.1 h with ⟨_, hdir, h⟩
      cases h
      exact ⟨rfl, fun _ => require_eq_ok.1 hdir⟩

theorem memTableToSST_ok (h : Tracks host db mem cached)
    (hrun : db.memTableToSST host sst = .ok db') :
    ∃ f, FlushStep host sst db db' mem f ∧ db'.memTable = db.memTable := by
  rcases bind_eq_ok.1 hrun with ⟨content, hopen, hrun⟩
  rcases bind_eq_ok.1 hrun with ⟨entries, hentries, hrun⟩
  rcases bind_eq_ok.1 hrun with ⟨bytes, hbuild, hrun⟩
  rcases h.memTable.entries with ⟨l, hl, hsorted, hmap, hsize, -⟩
  obtain rfl : entries = l := Except.ok.inj (hentries.symm.trans hl)
  cases hrun
  rw [hsize] at hbuild
  exact ⟨⟨db.options.lisstNum, resolve host.cwd (writePath db.options db.options.lisstNum), entries,
      bytes⟩,
    { number := rfl
      made := (openForAppend_ok hopen).2
      file := rfl
      sorted := hsorted
      entries := hmap
      bytes := hbuild
      options := rfl
      files := by rw [(openForAppend_ok hopen).1]
      flushes := rfl
      walWriter := rfl
      cache := rfl
      closed := rfl }, rfl⟩

/-- The memtable has reached its limit. -/
def Full (db : DBImpl) : Prop := asSizeT db.memTable.getMemUsage ≥ db.options.memTableMaxSize

instance (db : DBImpl) : Decidable db.Full := inferInstanceAs (Decidable (_ ≥ _))

/-- The last step of a write: a full memtable is flushed and replaced, any other
one stays. -/
def FlushesIfFull (host : Host) (sst : SstFormat) (db db' : DBImpl)
    (mem : Bytes → Option Bytes) : Prop :=
  (¬ db.Full ∧ db' = db) ∨
    (db.Full ∧ ∃ f, FlushStep host sst db db' mem f ∧ db'.memTable = MemTable.new)

theorem flushIfFull_ok (h : Tracks host db mem cached)
    (hrun : db.flushIfFull host sst = .ok db') : FlushesIfFull host sst db db' mem := by
  unfold flushIfFull at hrun
  split at hrun
  · rename_i hfull
    rcases bind_eq_ok.1 hrun with ⟨db₁, hflush, hrun⟩
    cases hrun
    rcases memTableToSST_ok h hflush with ⟨f, hf, -⟩
    exact Or.inr ⟨hfull, f, { hf with }, rfl⟩
  · rename_i hfull
    cases hrun
    exact Or.inl ⟨hfull, rfl⟩

/-- Behind a flush the memtable is empty and the cache is what it was. -/
theorem FlushStep.tracks {f : Flush} (hflush : FlushStep host sst db db' mem f)
    (hnew : db'.memTable = MemTable.new) (h : Tracks host db mem cached) :
    Tracks host db' (fun _ => none) cached where
  memTable := by
    rw [hnew]
    exact MemTable.new_represents
  cache := by
    rw [hflush.cache, hflush.options]
    exact h.cache

/-! ## Whole calls -/

/-- Everything but log, memtable and cache is the same. -/
structure SameTables (db db' : DBImpl) : Prop where
  options : db'.options = db.options
  files : db'.files = db.files
  flushes : db'.flushes = db.flushes
  closed : db'.closed = db.closed

theorem SameTables.refl (db : DBImpl) : SameTables db db := ⟨rfl, rfl, rfl, rfl⟩

/-- What a write makes of the cache. -/
def CacheAfter (cap : ℕ) (cached cached' : Bytes → Option Bytes) : Write → Prop
  | .put _ key value => CacheInsert cap (cString key) (cString value) cached cached'
  | .delete _ key => cached' = Function.update cached (cString key) none

/-- Once the pair is logged, a write reaches its flush: the last value goes into
the memtable, and the cache learns it or gives the key up. -/
theorem steps_spec (h : Tracks host db mem cached) {w : Write} {walWriter : FileWriter}
    (hlog : walAppend host.crc32c db.walWriter w.key w.value = .ok walWriter) :
    ∃ db' cached', run (execStage host sst) db w.steps = .ok db' ∧ db'.walWriter = walWriter ∧
      Tracks host db' (Function.update mem (cString w.key) (some (cString w.value))) cached' ∧
      CacheAfter db.options.cacheSize cached cached' w ∧ SameTables db db' := by
  have hLog : Tracks host { db with walWriter := walWriter } mem cached := ⟨h.memTable, h.cache⟩
  have hwrite : db.writeLog host w.key w.value = .ok { db with walWriter := walWriter } := by
    rw [writeLog, hlog, ok_bind, pure_eq_ok]
  cases w with
  | put flips key value =>
      simp only [Write.key, Write.value] at hwrite
      rcases putMemTable_spec hLog flips key value with ⟨t, ht, htrep⟩
      have hMem : Tracks host { db with walWriter := walWriter, memTable := t } _ cached :=
        ⟨htrep, h.cache⟩
      rcases putCache_spec hMem key value with ⟨c, cached', hc, hcrep, hins⟩
      refine ⟨{ db with walWriter := walWriter, memTable := t, cache := c }, cached', ?_, rfl,
        ⟨htrep, hcrep⟩, hins, rfl, rfl, rfl, rfl⟩
      simp only [Write.steps, run_cons, run_nil, execStage, hwrite, ht, hc, ok_bind]
  | delete flips key =>
      simp only [Write.key, Write.value] at hwrite
      rcases deleteMemTable_spec hLog flips key with ⟨t, ht, htrep⟩
      have hMem : Tracks host { db with walWriter := walWriter, memTable := t } _ cached :=
        ⟨htrep, h.cache⟩
      rcases eraseCache_spec hMem key with ⟨c, hc, hcrep⟩
      refine ⟨{ db with walWriter := walWriter, memTable := t, cache := c }, _, ?_, rfl,
        ⟨htrep, hcrep⟩, rfl, rfl, rfl, rfl, rfl⟩
      simp only [Write.steps, run_cons, run_nil, execStage, hwrite, ht, hc, ok_bind]

/-- So whatever a write did before its flush is this. -/
theorem steps_ok (h : Tracks host db mem cached) {w : Write}
    (hrun : run (execStage host sst) db w.steps = .ok db') :
    ∃ cached', walAppend host.crc32c db.walWriter w.key w.value = .ok db'.walWriter ∧
      Tracks host db' (Function.update mem (cString w.key) (some (cString w.value))) cached' ∧
      CacheAfter db.options.cacheSize cached cached' w ∧ SameTables db db' := by
  have hlogged : ∃ dbLog, db.writeLog host w.key w.value = .ok dbLog := by
    cases w with
    | put flips key value =>
        rcases bind_eq_ok.1 hrun with ⟨dbLog, hlog, -⟩
        exact ⟨dbLog, hlog⟩
    | delete flips key =>
        rcases bind_eq_ok.1 hrun with ⟨dbLog, hlog, -⟩
        exact ⟨dbLog, hlog⟩
  rcases hlogged with ⟨dbLog, hlog⟩
  rcases writeLog_ok hlog with ⟨walWriter, hw, -⟩
  rcases steps_spec h hw with ⟨db₁, cached', hrun', hwriter, htracks, hcache, hsame⟩
  obtain rfl : db₁ = db' := Except.ok.inj (hrun'.symm.trans hrun)
  exact ⟨cached', by rw [hw, hwriter], htracks, hcache, hsame⟩

/-- A write takes its steps and then may flush. -/
theorem write_cases (h : Tracks host db mem cached) {w : Write}
    (hrun : db.write host sst w = .ok db') :
    ∃ db₁ cached₁, walAppend host.crc32c db.walWriter w.key w.value = .ok db₁.walWriter ∧
      Tracks host db₁ (Function.update mem (cString w.key) (some (cString w.value))) cached₁ ∧
      CacheAfter db.options.cacheSize cached cached₁ w ∧ SameTables db db₁ ∧
      FlushesIfFull host sst db₁ db'
        (Function.update mem (cString w.key) (some (cString w.value))) := by
  rw [write_eq_run host sst (open_of_write_ok hrun), Write.stages, run_concat_ok] at hrun
  rcases hrun with ⟨db₁, hsteps, hflush⟩
  rcases steps_ok h hsteps with ⟨cached₁, hlog, h₁, hcache, hsame⟩
  exact ⟨db₁, cached₁, hlog, h₁, hcache, hsame, flushIfFull_ok h₁ hflush⟩

/-- The first two tiers answer what the cache has, else what the memtable has. -/
theorem getTiers_spec (h : Tracks host db mem cached) (key : Bytes) :
    ∃ db', db.getTiers host key =
        .ok (db', (cached (cString key)).or (mem (cString key))) ∧
      Tracks host db' mem cached ∧ SameTables db db' := by
  cases hcached : cached (cString key) with
  | some v =>
      rcases h.cache.get hcached with ⟨c, node, hget, hval, hc⟩
      refine ⟨{ db with cache := c }, ?_, ⟨h.memTable, hc⟩, ⟨rfl, rfl, rfl, rfl⟩⟩
      simp [getTiers, h.cache.contains, hcached, hget, hval]
  | none =>
      -- the memtable is only read
      refine ⟨db, ?_, h, SameTables.refl db⟩
      cases hmem : mem (cString key) with
      | some v =>
          simp [getTiers, h.cache.contains, hcached, h.memTable.contains, h.memTable.get, hmem]
      | none => simp [getTiers, h.cache.contains, hcached, h.memTable.contains, hmem]

/-- `Get` answers from the first two tiers, or reads the one file. -/
theorem get_cases (h : Tracks host db mem cached) {key out out' : Bytes} {status : DBStatus}
    (hrun : db.get host sst key out = .ok (db', status, out')) :
    SameTables db db' ∧
    ((Tracks host db' mem cached ∧ status = Status.success ∧
        (cached (cString key)).or (mem (cString key)) = some out') ∨
      (cached (cString key) = none ∧ mem (cString key) = none ∧
        ∃ content, db.files (resolve host.cwd (readPath db.options)) = some content ∧
          ((sst.seek content key = .ok none ∧ Tracks host db' mem cached ∧
              status = Status.notFound ∧ out' = out) ∨
            ∃ val cached', sst.seek content key = .ok (some val) ∧ Tracks host db' mem cached' ∧
              CacheInsert db.options.cacheSize (cString key) val cached cached' ∧
              status = Status.success ∧ out' = out ++ val))) := by
  rcases bind_eq_ok.1 hrun with ⟨-, -, hrun⟩
  rcases getTiers_spec h key with ⟨db₁, htiers, h₁, hsame⟩
  rw [htiers, ok_bind] at hrun
  cases htier : (cached (cString key)).or (mem (cString key)) with
  | some v =>
      rw [htier] at hrun
      cases hrun
      exact ⟨hsame, Or.inl ⟨h₁, rfl, rfl⟩⟩
  | none =>
      rw [htier] at hrun
      rcases Option.or_eq_none_iff.1 htier with ⟨hcached, hmem⟩
      rcases bind_eq_ok.1 hrun with ⟨content, hfile, hrun⟩
      rcases bind_eq_ok.1 hrun with ⟨val, hseek, hrun⟩
      rw [orFail_eq_ok, hsame.files, hsame.options] at hfile
      cases val with
      | none =>
          cases hrun
          exact ⟨hsame, Or.inr ⟨hcached, hmem, content, hfile, Or.inl ⟨hseek, h₁, rfl, rfl⟩⟩⟩
      | some val =>
          rcases bind_eq_ok.1 hrun with ⟨c, hinsert, hrun⟩
          cases hrun
          -- the value that was found goes into the cache
          rcases h₁.cache.insert (cString key) val with ⟨c', cached', hins, hc, h1, h2, h3⟩
          obtain rfl := Except.ok.inj (hins.symm.trans hinsert)
          rw [hsame.options] at hc h2
          refine ⟨⟨hsame.options, hsame.files, hsame.flushes, hsame.closed⟩,
            Or.inr ⟨hcached, hmem, content, hfile, Or.inr ⟨val, cached', hseek, ⟨h₁.memTable, ?_⟩,
              ⟨h1, h2, h3⟩, rfl, rfl⟩⟩⟩
          rw [← hsame.options] at hc
          exact hc

end DBImpl

end Smallkv
