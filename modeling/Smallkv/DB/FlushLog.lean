import Smallkv.DB.Format

/-!
# DB.FlushLog — what a session does to the tables

Whatever a client calls, the counter, the files and the history of flushes move
together: the `i`-th flush of a session gets the `i`-th number behind the one
the session was opened with, goes to the file of that number and adds its bytes
to that file. `FlushLog` says so, every call keeps it (`step_flushLog`), and so
every session does (`run_flushLog`).
-/

namespace Smallkv

open Fallible Assoc

/-- The file of the table with the given number. -/
def tableFile (host : Host) (options : Options) (number : UInt32) : FileId :=
  resolve host.cwd (DBImpl.writePath options number)

theorem tableFile_injective {host : Host} {options : Options} {a b : UInt32}
    (h : tableFile host options a = tableFile host options b) : a = b := by
  have hname : ∀ n : UInt32, (tableFile host options n).head? = some (buildSSTPath 0 n.toNat) := by
    intro n
    rcases buildSSTPath_part 0 n.toNat with ⟨hslash, -, hne, hdot, hdotdot⟩
    rw [tableFile, DBImpl.writePath, resolve_child host.cwd options.storageDir hslash hne hdot
      hdotdot, List.head?_cons]
  have hnames := (hname a).symm.trans (h ▸ hname b)
  exact UInt32.toNat_inj.1 (buildSSTPath_injective (Option.some.inj hnames))

/-! ## Replaying flushes -/

/-- A flush adds its bytes to its file. -/
def Flush.apply (f : Flush) (files : FileId → Option Bytes) : FileId → Option Bytes :=
  Function.update files f.file (some ((files f.file).getD [] ++ f.bytes))

/-- The files behind a list of flushes, newest first. -/
def replay (files : FileId → Option Bytes) (fs : List Flush) : FileId → Option Bytes :=
  fs.foldr Flush.apply files

@[simp] theorem replay_nil (files : FileId → Option Bytes) : replay files [] = files := rfl

@[simp] theorem replay_cons (files : FileId → Option Bytes) (f : Flush) (fs : List Flush) :
    replay files (f :: fs) = f.apply (replay files fs) := rfl

theorem replay_append (files : FileId → Option Bytes) (fs gs : List Flush) :
    replay files (fs ++ gs) = replay (replay files gs) fs := by
  simp [replay, List.foldr_append]

theorem replay_other {files : FileId → Option Bytes} {fs : List Flush} {file : FileId}
    (h : file ∉ fs.map Flush.file) : replay files fs file = files file := by
  induction fs with
  | nil => rfl
  | cons f fs ih =>
      simp only [List.map_cons, List.mem_cons, not_or] at h
      rw [replay_cons, Flush.apply, Function.update_of_ne h.1, ih h.2]

/-- Where no two flushes share a file and all files are new, every file holds
what was written to it and nothing else. -/
theorem replay_of_nodup {files : FileId → Option Bytes} {fs : List Flush}
    (hnodup : (fs.map Flush.file).Nodup) (hnew : ∀ f ∈ fs, files f.file = none) :
    ∀ f ∈ fs, replay files fs f.file = some f.bytes := by
  induction fs with
  | nil => simp
  | cons f fs ih =>
      rw [List.map_cons, List.nodup_cons] at hnodup
      intro g hg
      rcases List.mem_cons.1 hg with rfl | hg
      · rw [replay_cons, Flush.apply, Function.update_self, replay_other hnodup.1,
          hnew g List.mem_cons_self]
        rfl
      · have hne : g.file ≠ f.file := by
          intro heq
          exact hnodup.1 (heq ▸ List.mem_map_of_mem hg)
        rw [replay_cons, Flush.apply, Function.update_of_ne hne]
        exact ih hnodup.2 (fun f' hf' => hnew f' (List.mem_cons_of_mem f hf')) g hg

/-! ## Sessions -/

/-- The flushes of one session, newest first: numbered upwards from where the
session was opened, each with the file of its number and the bytes of its
pairs. -/
structure SessionFlushes (host : Host) (sst : SstFormat) (options : Options)
    (fs : List Flush) : Prop where
  numbers : fs.map Flush.number =
    (List.range fs.length).reverse.map fun i => options.lisstNum + UInt32.ofNat i
  file : ∀ f ∈ fs, f.file = tableFile host options f.number
  sorted : ∀ f ∈ fs, f.entries.Pairwise fun a b => a.1 < b.1
  bytes : ∀ f ∈ fs, sst.build (asInt32 f.entries.length) f.entries = .ok f.bytes

/-- A number comes back after `2 ^ 32` flushes and not before. -/
theorem SessionFlushes.nodup_iff {host : Host} {sst : SstFormat} {options : Options}
    {fs : List Flush} (h : SessionFlushes host sst options fs) :
    (fs.map Flush.file).Nodup ↔ fs.length ≤ 2 ^ 32 := by
  have hfiles : fs.map Flush.file = (List.range fs.length).reverse.map fun i =>
      tableFile host options (options.lisstNum + UInt32.ofNat i) := by
    calc fs.map Flush.file = (fs.map Flush.number).map (tableFile host options) := by
          rw [List.map_map]
          exact List.map_congr_left fun f hf => h.file f hf
      _ = _ := by rw [h.numbers, List.map_map]; rfl
  -- files are told apart by their numbers, numbers modulo `2 ^ 32`
  have hsame : ∀ i j : ℕ, tableFile host options (options.lisstNum + UInt32.ofNat i) =
      tableFile host options (options.lisstNum + UInt32.ofNat j) ↔ i % 2 ^ 32 = j % 2 ^ 32 := by
    intro i j
    constructor
    · intro heq
      have hij := congrArg UInt32.toNat (add_left_cancel (tableFile_injective heq))
      simpa using hij
    · intro heq
      have hij : UInt32.ofNat i = UInt32.ofNat j := UInt32.toNat_inj.1 (by simpa using heq)
      rw [hij]
  rw [hfiles]
  constructor
  · -- the number of the flush `2 ^ 32` is the first one again
    intro hnodup
    by_contra hlt
    have hinj := List.inj_on_of_nodup_map hnodup
    have hfirst : 0 ∈ (List.range fs.length).reverse := by
      rw [List.mem_reverse, List.mem_range]
      omega
    have hagain : 2 ^ 32 ∈ (List.range fs.length).reverse := by
      rw [List.mem_reverse, List.mem_range]
      omega
    have hzero := hinj hfirst hagain ((hsame 0 (2 ^ 32)).2 (by norm_num))
    norm_num at hzero
  · intro hle
    refine List.Nodup.map_on ?_ (List.nodup_reverse.2 List.nodup_range)
    intro i hi j hj heq
    simp only [List.mem_reverse, List.mem_range] at hi hj
    have hij := (hsame i j).1 heq
    omega

namespace DBImpl

/-- What a session that was opened on `files` has done so far. -/
structure FlushLog (host : Host) (sst : SstFormat) (options : Options)
    (files : FileId → Option Bytes) (db : DBImpl) : Prop where
  counter : db.options =
    { options with lisstNum := options.lisstNum + UInt32.ofNat db.flushes.length }
  flushes : SessionFlushes host sst options db.flushes
  files : db.files = replay files db.flushes

variable {host : Host} {sst : SstFormat} {options : Options} {files : FileId → Option Bytes}
  {db db' : DBImpl} {mem cached : Bytes → Option Bytes}

theorem openDB_flushLog (host : Host) (sst : SstFormat) (options : Options) (disk : Disk) :
    FlushLog host sst options disk.files (openDB options disk) where
  counter := by simp [openDB]
  flushes := ⟨rfl, by simp [openDB], by simp [openDB], by simp [openDB]⟩
  files := rfl

/-- Where the files were new and none is shared, each holds its table. -/
theorem FlushLog.stored (h : FlushLog host sst options files db)
    (hnew : ∀ number, files (tableFile host options number) = none)
    (hnodup : (db.flushes.map Flush.file).Nodup) :
    ∀ f ∈ db.flushes, db.files f.file = some f.bytes := by
  rw [h.files]
  apply replay_of_nodup hnodup
  intro f hf
  rw [h.flushes.file f hf]
  exact hnew f.number

/-- A step that leaves the tables alone leaves the log of them alone. -/
theorem SameTables.flushLog (hsame : SameTables db db') (h : FlushLog host sst options files db) :
    FlushLog host sst options files db' where
  counter := by
    rw [hsame.options, hsame.flushes]
    exact h.counter
  flushes := by
    rw [hsame.flushes]
    exact h.flushes
  files := by
    rw [hsame.files, hsame.flushes]
    exact h.files

theorem FlushStep.flushLog {f : Flush} (hflush : FlushStep host sst db db' mem f)
    (h : FlushLog host sst options files db) : FlushLog host sst options files db' where
  counter := by
    rw [hflush.options, hflush.flushes, h.counter]
    simp [add_assoc]
  flushes := by
    have hfile : f.file = tableFile host options f.number := by
      rw [hflush.file, hflush.number, h.counter]
      rfl
    rw [hflush.flushes]
    constructor
    · rw [List.map_cons, h.flushes.numbers, hflush.number, h.counter, List.length_cons,
        List.range_succ]
      simp
    · simpa [hfile] using h.flushes.file
    · simpa [hflush.sorted] using h.flushes.sorted
    · simpa [hflush.bytes] using h.flushes.bytes
  files := by
    rw [hflush.files, hflush.flushes, replay_cons, ← h.files]
    rfl

/-! ## Calls -/

/-- What a call makes of the memtable before it flushes. -/
def memAfter (mem : Bytes → Option Bytes) : Op → Bytes → Option Bytes
  | .write w => Function.update mem (cString w.key) (some (cString w.value))
  | .get _ => mem

/-- A call leaves the tables alone, but a write may end with a flush. -/
theorem step_cases (h : Tracks host db mem cached) {op : Op}
    (hrun : db.step host sst op = .ok db') :
    ∃ db₁ cached₁, Tracks host db₁ (memAfter mem op) cached₁ ∧ SameTables db db₁ ∧
      (db' = db₁ ∨ ∃ w f, op = .write w ∧ FlushStep host sst db₁ db' (memAfter mem op) f ∧
        db'.memTable = MemTable.new) := by
  cases op with
  | write w =>
      rcases write_cases h hrun with ⟨db₁, cached₁, -, h₁, -, hsame, hflush⟩
      rcases hflush with ⟨-, hstay⟩ | ⟨-, f, hf, hnew⟩
      · exact ⟨db₁, cached₁, h₁, hsame, Or.inl hstay⟩
      · exact ⟨db₁, cached₁, h₁, hsame, Or.inr ⟨w, f, rfl, hf, hnew⟩⟩
  | get key =>
      rcases bind_eq_ok.1 hrun with ⟨⟨dbGet, status, out⟩, hget, hrun⟩
      cases hrun
      rcases get_cases h hget with ⟨hsame, hcases⟩
      rcases hcases with ⟨h₁, -, -⟩ | ⟨-, -, content, -, ⟨-, h₁, -, -⟩ | ⟨val, cached₁, -, h₁, -⟩⟩
      · exact ⟨_, cached, h₁, hsame, Or.inl rfl⟩
      · exact ⟨_, cached, h₁, hsame, Or.inl rfl⟩
      · exact ⟨_, cached₁, h₁, hsame, Or.inl rfl⟩

theorem step_flushLog (h : Tracks host db mem cached) (hlog : FlushLog host sst options files db)
    {op : Op} (hrun : db.step host sst op = .ok db') :
    FlushLog host sst options files db' ∧ db'.closed = db.closed ∧
      ∃ mem' cached', Tracks host db' mem' cached' := by
  rcases step_cases h hrun with ⟨db₁, cached₁, h₁, hsame, rfl | ⟨w, f, -, hflush, hnew⟩⟩
  · exact ⟨hsame.flushLog hlog, hsame.closed, _, cached₁, h₁⟩
  · exact ⟨hflush.flushLog (hsame.flushLog hlog), hflush.closed.trans hsame.closed, _, _,
      hflush.tracks hnew h₁⟩

theorem run_flushLog {disk : Disk} {ops : List Op}
    (hrun : run (step host sst) (openDB options disk) ops = .ok db) :
    FlushLog host sst options disk.files db ∧ db.closed = false ∧
      ∃ mem cached, Tracks host db mem cached := by
  refine run_invariant (fun db => FlushLog host sst options disk.files db ∧ db.closed = false ∧
    ∃ mem cached, Tracks host db mem cached) ?_ ?_ hrun
  · rintro db op db' ⟨hlog, hopen, mem, cached, h⟩ hstep
    rcases step_flushLog h hlog hstep with ⟨hlog', hclosed, h'⟩
    exact ⟨hlog', hclosed.trans hopen, h'⟩
  · exact ⟨openDB_flushLog host sst options disk, rfl, _, _, openDB_tracks host options disk⟩

/-- `Close` flushes what is left; a database that was closed before, or whose
memtable counts no keys, it leaves alone. -/
theorem close_cases (h : Tracks host db mem cached) {status : DBStatus}
    (hrun : db.close host sst = .ok (db', status)) :
    (db' = db ∧ (db.closed = true ∨ db.memTable.getSize ≤ 0)) ∨
      (0 < db.memTable.getSize ∧ ∃ db₁ f, FlushStep host sst db db₁ mem f ∧
        db' = { db₁ with closed := true }) := by
  unfold close at hrun
  split at hrun
  · rename_i hcond
    rcases bind_eq_ok.1 hrun with ⟨db₁, hflush, hrun⟩
    cases hrun
    rcases memTableToSST_ok h hflush with ⟨f, hf, -⟩
    exact Or.inr ⟨hcond.2, db₁, f, hf, rfl⟩
  · rename_i hcond
    cases hrun
    refine Or.inl ⟨rfl, ?_⟩
    by_cases hclosed : db.closed = true
    · exact Or.inl hclosed
    · exact Or.inr (not_lt.1 fun hpos => hcond ⟨by simpa using hclosed, hpos⟩)

end DBImpl

end Smallkv
