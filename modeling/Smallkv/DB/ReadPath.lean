import Smallkv.DB.Progress

/-!
# DB.ReadPath — which table `Get` reads

`MemTableToSST` puts a separator between the storage directory and the name of
a table, and `Get` does not; and `Get` knows the name of the first table only.
-/

namespace Smallkv

open Fallible Assoc

/-! ## The path that is read -/

/-- The byte 'v' is the third one of a table's name and occurs nowhere else. -/
theorem mark_buildSSTPath (n : ℕ) :
    (buildSSTPath 0 n).count 118 = 1 ∧ (buildSSTPath 0 n).idxOf 118 = 2 := by
  have hdigits : (118 : Byte) ∉ decimal n := by
    intro h
    exact absurd (mem_decimal h).2 (by decide)
  constructor
  · have hcount : (decimal n).count 118 = 0 := List.count_eq_zero.2 hdigits
    simp only [buildSSTPath, List.count_append, hcount]
    decide
  · simp only [buildSSTPath, List.append_assoc]
    rfl

/-- A table's name behind something else is a table's name only if there is
nothing before it. -/
theorem append_buildSSTPath_iff {p : Bytes} {m n : ℕ} :
    p ++ buildSSTPath 0 m = buildSSTPath 0 n ↔ p = [] ∧ m = n := by
  constructor
  · intro h
    have hcount := congrArg (List.count 118) h
    rw [List.count_append, (mark_buildSSTPath m).1, (mark_buildSSTPath n).1] at hcount
    have hmark : (118 : Byte) ∉ p := List.count_eq_zero.1 (by omega)
    have hidx := congrArg (List.idxOf 118) h
    rw [List.idxOf_append_of_notMem hmark, (mark_buildSSTPath m).2, (mark_buildSSTPath n).2] at hidx
    have hnil : p = [] := List.eq_nil_of_length_eq_zero (by omega)
    subst hnil
    exact ⟨rfl, buildSSTPath_injective h⟩
  · rintro ⟨rfl, rfl⟩
    rfl

/-- A path without a separator, or what is before and behind the last one. -/
theorem exists_last_part (s : Bytes) :
    slash ∉ s ∨ ∃ dir part, s = dir ++ slash :: part ∧ slash ∉ part := by
  by_cases h : slash ∈ s
  · rcases List.eq_append_cons_of_mem (List.mem_reverse.2 h) with ⟨a, b, hab, ha⟩
    refine Or.inr ⟨b.reverse, a.reverse, ?_, by simpa using ha⟩
    rw [← List.reverse_inj, hab]
    simp
  · exact Or.inl h

theorem readPath_eq (options : Options) :
    DBImpl.readPath options = options.storageDir ++ buildSSTPath 0 0 := by
  have hname : ascii "level_0_sst_0.sst" = buildSSTPath 0 0 := by decide
  rw [DBImpl.readPath, hname]

/-- What stands before a table's name does not make it a special part. -/
theorem append_buildSSTPath_part {p : Bytes} (hp : slash ∉ p) (n : ℕ) :
    slash ∉ p ++ buildSSTPath 0 n ∧ p ++ buildSSTPath 0 n ≠ [] ∧
      p ++ buildSSTPath 0 n ≠ ascii "." ∧ p ++ buildSSTPath 0 n ≠ ascii ".." := by
  rcases buildSSTPath_part 0 n with ⟨hslash, -, -, -, -⟩
  have hlen : 6 ≤ (p ++ buildSSTPath 0 n).length := by
    have hlevel : (ascii "level_").length = 6 := by decide
    simp only [buildSSTPath, List.length_append]
    omega
  refine ⟨by simp [hp, hslash], ?_, ?_, ?_⟩
  · intro h
    simp [h] at hlen
  · intro h
    rw [h] at hlen
    exact absurd hlen (by decide)
  · intro h
    rw [h] at hlen
    exact absurd hlen (by decide)

/-- `Get` opens the file of a table exactly when the storage directory ends with
a separator and the table is number 0. -/
theorem readPath_resolves_iff (host : Host) {options : Options} (hdir : options.storageDir ≠ [])
    (number : UInt32) :
    resolve host.cwd (DBImpl.readPath options) = tableFile host options number ↔
      options.storageDir.getLast? = some slash ∧ number = 0 := by
  rcases buildSSTPath_part 0 number.toNat with ⟨hslash, -, hne, hdot, hdotdot⟩
  have hzero : number = 0 ↔ 0 = number.toNat := by
    rw [← UInt32.toNat_inj]
    exact eq_comm
  rw [readPath_eq, tableFile, DBImpl.writePath, hzero,
    resolve_child host.cwd options.storageDir hslash hne hdot hdotdot]
  generalize options.storageDir = dir at hdir
  rcases exists_last_part dir with hpart | ⟨parent, part, rfl, hpart⟩
  · -- a relative path of one part: the name that is read is longer than a table's
    rcases append_buildSSTPath_part hpart 0 with ⟨hslash', hne', hdot', hdotdot'⟩
    have hread : ∃ rest, resolve host.cwd (dir ++ buildSSTPath 0 0) =
        (dir ++ buildSSTPath 0 0) :: rest := by
      rw [resolve, List.splitOn_eq_singleton hslash', List.foldl_cons, List.foldl_nil, descend,
        if_neg (not_or.2 ⟨hne', hdot'⟩), if_neg hdotdot']
      exact ⟨_, rfl⟩
    rcases hread with ⟨rest, hread⟩
    constructor
    · intro h
      rw [hread] at h
      exact absurd (append_buildSSTPath_iff.1 (List.cons.inj h).1).1 hdir
    · rintro ⟨hlast, -⟩
      exact absurd (List.mem_of_getLast? hlast) hpart
  · -- both paths have the parent, and the parts behind it are compared
    rcases append_buildSSTPath_part hpart 0 with ⟨hslash', hne', hdot', hdotdot'⟩
    have hpath : parent ++ slash :: part ++ buildSSTPath 0 0 =
        parent ++ slash :: (part ++ buildSSTPath 0 0) := by
      simp
    have hhead : (parent ++ slash :: part ++ [slash]).head? = (parent ++ [slash]).head? := by
      cases parent <;> rfl
    rw [hpath, resolve_child host.cwd parent hslash' hne' hdot' hdotdot', hhead,
      List.splitOn_append_cons_self, List.splitOn_eq_singleton hpart, List.foldl_append,
      List.foldl_cons, List.foldl_nil]
    constructor
    · intro h
      rcases append_buildSSTPath_iff.1 (List.cons.inj h).1 with ⟨rfl, hnumber⟩
      exact ⟨by simp, hnumber⟩
    · rintro ⟨hlast, hnumber⟩
      -- a directory that ends with a separator has an empty last part
      have hnil : part = [] := by
        by_contra hne
        rw [List.getLast?_append_cons, List.getLast?_cons_of_ne_nil hne] at hlast
        exact hpart (List.mem_of_getLast? hlast)
      subst hnil
      rw [List.nil_append, ← hnumber]
      simp [descend]

/-! ## What `Get` answers -/

namespace DBImpl

/-- Status and value, for a client that hands in an empty string. -/
def answer (host : Host) (sst : SstFormat) (db : DBImpl) (key : Bytes) :
    Exec (DBStatus × Bytes) := do
  let (_, status, out) ← db.get host sst key []
  pure (status, out)

variable {host : Host} {sst : SstFormat} {options : Options} {db db' : DBImpl}
  {mem cached : Bytes → Option Bytes} {key : Bytes}

/-- The first two tiers come first. -/
theorem answer_of_tiers (h : Tracks host db mem cached) (hopen : db.closed = false) {v : Bytes}
    (htier : (cached (cString key)).or (mem (cString key)) = some v) :
    db.answer host sst key = .ok (Status.success, v) := by
  rcases getTiers_spec h key with ⟨db₁, hrun, -⟩
  rw [htier] at hrun
  simp only [answer, get, require_of hopen, hrun, ok_bind, pure_eq_ok]

/-- Then the one file. -/
theorem answer_of_file (h : Tracks host db mem cached) (hopen : db.closed = false)
    (htier : (cached (cString key)).or (mem (cString key)) = none) {content : Bytes}
    (hfile : db.files (resolve host.cwd (readPath db.options)) = some content)
    {val : Option Bytes} (hseek : sst.seek content key = .ok val) :
    db.answer host sst key =
      .ok (val.elim (Status.notFound, []) fun v => (Status.success, v)) := by
  rcases getTiers_spec h key with ⟨db₁, hrun, h₁, hsame⟩
  rw [htier] at hrun
  have hfile₁ : db₁.files (resolve host.cwd (readPath db₁.options)) = some content := by
    rw [hsame.files, hsame.options, hfile]
  cases val with
  | none =>
      simp only [answer, get, require_of hopen, hrun, getSST, hfile₁, orFail_some, hseek, ok_bind,
        pure_eq_ok, Option.elim_none]
  | some v =>
      rcases h₁.cache.insert (cString key) v with ⟨c, -, hinsert, -⟩
      simp only [answer, get, require_of hopen, hrun, getSST, hfile₁, orFail_some, hseek, hinsert,
        ok_bind, pure_eq_ok, Option.elim_some, List.nil_append]

/-! ## Keys are C strings -/

def NulFreeKeys (m : Bytes → Option Bytes) : Prop := ∀ k, m k ≠ none → 0 ∉ k

theorem NulFreeKeys.update {m : Bytes → Option Bytes} (h : NulFreeKeys m) (k v : Bytes) :
    NulFreeKeys (Function.update m (cString k) v) := by
  intro k' hk'
  rw [Function.update_apply] at hk'
  split at hk'
  · rename_i heq
    rw [heq]
    exact zero_notMem_cString k
  · exact h k' hk'

/-- Memtable and tables only know C strings. -/
theorem run_nulFreeKeys {disk : Disk} {ops : List Op}
    (hrun : run (step host sst) (openDB options disk) ops = .ok db) :
    ∃ mem cached, Tracks host db mem cached ∧ NulFreeKeys mem ∧
      ∀ f ∈ db.flushes, NulFreeKeys (toMap f.entries) := by
  refine run_invariant (fun db => ∃ mem cached, Tracks host db mem cached ∧ NulFreeKeys mem ∧
    ∀ f ∈ db.flushes, NulFreeKeys (toMap f.entries)) ?_ ?_ hrun
  · rintro db op db' ⟨mem, cached, h, hmem, htables⟩ hstep
    rcases step_cases h hstep with ⟨db₁, cached₁, h₁, hsame, hflush⟩
    rw [← hsame.flushes] at htables
    have hmem₁ : NulFreeKeys (memAfter mem op) := by
      cases op with
      | write w => exact hmem.update w.key _
      | get key => exact hmem
    rcases hflush with rfl | ⟨w, f, -, hf, hnew⟩
    · exact ⟨_, cached₁, h₁, hmem₁, htables⟩
    · refine ⟨_, _, hf.tracks hnew h₁, by simp [NulFreeKeys], ?_⟩
      intro g hg
      rw [hf.flushes] at hg
      rcases List.mem_cons.1 hg with rfl | hg
      · rw [hf.entries]
        exact hmem₁
      · exact htables g hg
  · exact ⟨_, _, openDB_tracks host options disk, by simp [NulFreeKeys], by simp [openDB]⟩

/-! ## Reading behind a flush -/

/-- The newest table that has the key. -/
def newest (fs : List Flush) (key : Bytes) : Option Flush :=
  fs.find? fun f => (toMap f.entries key).isSome

/-- A flush makes the newest table; where it does not have the key, the older
ones are asked. -/
theorem newest_cons {table f : Flush} {fs : List Flush} (h : newest (table :: fs) key = some f) :
    f = table ∨ (toMap table.entries key = none ∧ newest fs key = some f) := by
  rw [newest, List.find?_cons] at h
  cases htable : toMap table.entries key with
  | some v =>
      simp only [htable, Option.isSome_some] at h
      exact Or.inl (Option.some.inj h).symm
  | none =>
      simp only [htable, Option.isSome_none] at h
      exact Or.inr ⟨rfl, h⟩

/-- A flush from `db` to `db'` changes nothing for a key whose newest table is
`f`, with the value `v`: `Get` opens that table, and answers what it answered
before. -/
structure FlushKeeps (host : Host) (sst : SstFormat) (db db' : DBImpl) (key : Bytes)
    (f : Flush) (v : Bytes) : Prop where
  path : resolve host.cwd (readPath db'.options) = f.file
  after : db'.answer host sst key = .ok (Status.success, v)
  before : db.answer host sst key = .ok (Status.success, v)

/-- A write that is about to flush, and the state behind its flush. -/
structure FlushPoint (host : Host) (sst : SstFormat) (options : Options) (disk : Disk)
    (db db' : DBImpl) : Prop where
  reached : ∃ ops dbOps w, run (step host sst) (openDB options disk) ops = .ok dbOps ∧
    run (execStage host sst) dbOps (Write.steps w) = .ok db
  full : db.Full
  flush : db.flushIfFull host sst = .ok db'

/-- What is known at a flush. -/
theorem FlushPoint.facts {disk : Disk} (h : FlushPoint host sst options disk db db') :
    ∃ mem cached table, Tracks host db mem cached ∧ Tracks host db' (fun _ => none) cached ∧
      FlushLog host sst options disk.files db ∧ FlushLog host sst options disk.files db' ∧
      FlushStep host sst db db' mem table ∧ db.closed = false ∧
      ∀ f ∈ db'.flushes, NulFreeKeys (toMap f.entries) := by
  rcases h.reached with ⟨ops, dbOps, w, hrun, hsteps⟩
  rcases run_flushLog hrun with ⟨hlog, hopen, -⟩
  rcases run_nulFreeKeys hrun with ⟨mem, cached, hOps, hmem, htables⟩
  rcases steps_ok hOps hsteps with ⟨cached₁, -, h₁, -, hsame⟩
  rcases flushIfFull_ok h₁ h.flush with ⟨hnot, -⟩ | ⟨-, table, hflush, hnew⟩
  · exact absurd h.full hnot
  · have hlog₁ := hsame.flushLog hlog
    refine ⟨_, cached₁, table, h₁, hflush.tracks hnew h₁, hlog₁, hflush.flushLog hlog₁, hflush,
      hsame.closed.trans hopen, ?_⟩
    intro f hf
    rw [hflush.flushes, hsame.flushes] at hf
    rcases List.mem_cons.1 hf with rfl | hf
    · rw [hflush.entries]
      exact hmem.update w.key _
    · exact htables f hf

/-- A new table needs a storage directory with a name. -/
theorem FlushStep.storageDir {table : Flush} (h : FlushStep host sst db db' mem table)
    (hnew : db.files table.file = none) : db.options.storageDir ≠ [] := by
  have hdir := h.made hnew
  rwa [writePath, dirPath_child _ (buildSSTPath_part 0 _).1] at hdir

/-- A file that holds one table is read as that table. -/
theorem answer_of_table (hsst : sst.Faithful) (h : Tracks host db mem cached)
    (hopen : db.closed = false) (htier : (cached (cString key)).or (mem (cString key)) = none)
    {f : Flush} (hpath : resolve host.cwd (readPath db.options) = f.file)
    (hfile : db.files f.file = some f.bytes) (hsorted : f.entries.Pairwise fun a b => a.1 < b.1)
    (hbytes : sst.build (asInt32 f.entries.length) f.entries = .ok f.bytes) {v : Bytes}
    (hv : toMap f.entries key = some v) :
    db.answer host sst key = .ok (if v = [] then (Status.notFound, []) else (Status.success, v)) := by
  rw [answer_of_file h hopen htier (hpath ▸ hfile) (hsst.seek hsorted hbytes key), hv]
  by_cases hempty : v = []
  · rw [if_pos hempty, hempty]
    rfl
  · rw [if_neg hempty, Option.filter_some, if_pos (by simpa using hempty)]
    rfl

/-- Before the flush the key was in the memtable, or in an older table, which
the flush does not touch. -/
theorem FlushStep.answer_before {files : FileId → Option Bytes} {table f : Flush} {v : Bytes}
    (hsst : sst.Faithful) (hflush : FlushStep host sst db db' mem table)
    (h : Tracks host db mem cached)
    (hlog : FlushLog host sst options files db)
    (hnew : ∀ number, files (tableFile host options number) = none)
    (hnodup : (db'.flushes.map Flush.file).Nodup) (hopen : db.closed = false)
    (hkey : cString key = key) (hcached : cached key = none)
    (hread : resolve host.cwd (readPath db.options) = f.file)
    (hf : newest db'.flushes key = some f) (hv : toMap f.entries key = some v) (hne : v ≠ []) :
    db.answer host sst key = .ok (Status.success, v) := by
  rw [hflush.flushes] at hf hnodup
  rcases newest_cons hf with rfl | ⟨hnone, hf'⟩
  · apply answer_of_tiers h hopen
    rw [hkey, hcached, Option.none_or, ← hflush.entries, hv]
  · have hmem : f ∈ db.flushes := List.mem_of_find?_eq_some hf'
    have hstored := hlog.stored hnew (List.nodup_cons.1 hnodup).2 f hmem
    have htier : (cached (cString key)).or (mem (cString key)) = none := by
      rw [hkey, hcached, Option.none_or, ← hflush.entries, hnone]
    rw [answer_of_table hsst h hopen htier hread hstored (hlog.flushes.sorted f hmem)
      (hlog.flushes.bytes f hmem) hv, if_neg hne]

end DBImpl

open DBImpl

end Smallkv
