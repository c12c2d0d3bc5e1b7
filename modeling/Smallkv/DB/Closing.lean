import Smallkv.DB.FlushComplete
import Smallkv.DB.Overlay

/-!
# DB.Closing — what `Close` leaves behind

Runs in which clients also close the database, at any time and any number of
times. A database that was closed refuses every call but `Close`, which it
ignores, and the data blocks of its tables hold what was written, but for the
empty key, which no builder takes in. `Close` sets the flag together with the
flush of what is left, so where nothing is left it returns from an open
database: `finalOnceClosed_iff` says in which runs that does not happen.
-/

namespace Smallkv

open Fallible Assoc

namespace DBImpl

variable (host : Host) (sst : SstFormat)

/-- A call by a client, `Close` among them. -/
inductive Call where
  | op (op : Op)
  | close

/-- The operations among the calls. -/
def ops : List Call → List Op
  | [] => []
  | .op op :: calls => op :: ops calls
  | .close :: calls => ops calls

def call (db : DBImpl) : Call → Exec DBImpl
  | .op op => db.step host sst op
  | .close => do
    let (db, _) ← db.close host sst
    pure db

/-- What a flush has left on the disk: of the pairs of the memtable these stand in the
data blocks of its table, whose bytes are in its file. -/
structure TableHolds (db : DBImpl) (f : Flush) (pairs : List (Bytes × Bytes)) : Prop where
  flushed : pairs ⊆ f.entries
  records : ∃ parts, HoldsRecords f.bytes parts ∧ parts.flatten = pairs
  stored : ∃ before after, db.files f.file = some (before ++ f.bytes ++ after)

/-- The pairs that the writes left are in tables: the newest table with the key
has the value. -/
def Persisted (db : DBImpl) (ws : List Write) : Prop :=
  ∃ pairs : Flush → List (Bytes × Bytes), (∀ f ∈ db.flushes, TableHolds db f (pairs f)) ∧
    ∀ key v, lastWrite ws key = some v →
      overlay (db.flushes.map fun f => toMap (pairs f)) key = some v

/-- What is promised of a database that `Close` has returned from: the pairs are
in tables, the flag that every operation checks first is set, so that none
executes, and one more `Close` changes nothing. -/
structure Final (db : DBImpl) (ws : List Write) : Prop where
  persisted : Persisted db ws
  closed : db.closed = true
  refused : ∀ op, db.step host sst op = .error .assertion
  again : db.close host sst = .ok (db, Status.success)

/-- In a state that is reached by calls with a `Close` among them. -/
def FinalOnceClosed (calls : List Call) (db : DBImpl) : Prop :=
  .close ∈ calls → Final host sst db (writes (ops calls))

/-! ## C strings -/

/-- The pairs that the writes left have a key, and no NUL byte in them. -/
def LeavesTablePairs (ws : List Write) : Prop :=
  ∀ key v, lastWrite ws key = some v → key ≠ [] ∧ 0 ∉ key ∧ 0 ∉ v

theorem lastWrite_of_mem {ws : List Write} {w : Write} (h : w ∈ ws) :
    ∃ v, lastWrite ws w.key = some v := by
  cases hlast : lastWrite ws w.key with
  | some v => exact ⟨v, rfl⟩
  | none =>
      rw [lastWrite, Option.map_eq_none_iff, List.find?_eq_none] at hlast
      have hne := hlast w (List.mem_reverse.2 h)
      simp at hne

/-- Where the keys are NUL-free only the values can change. -/
theorem lastStored_of_keys {ws : List Write} (hkeys : ∀ w ∈ ws, 0 ∉ w.key) (key : Bytes) :
    lastStored ws key = (lastWrite ws key).map cString := by
  induction ws using List.reverseRecOn with
  | nil => rfl
  | append_singleton ws w ih =>
      have hws := ih fun w' hw' => hkeys w' (List.mem_append_left _ hw')
      have hw := hkeys w (by simp)
      rw [lastStored_concat, lastWrite_update, cString_eq_self hw]
      by_cases hkey : key = w.key
      · rw [hkey, Function.update_self, Function.update_self, Option.map_some]
      · rw [Function.update_of_ne hkey, Function.update_of_ne hkey, hws]

/-- Such last writes are those of the C strings. -/
theorem LeavesTablePairs.lastStored {ws : List Write} (h : LeavesTablePairs ws) {key v : Bytes}
    (hlast : lastWrite ws key = some v) : DBImpl.lastStored ws key = some v := by
  have hkeys : ∀ w ∈ ws, 0 ∉ w.key := by
    intro w hw
    rcases lastWrite_of_mem hw with ⟨v', hv'⟩
    exact (h w.key v' hv').2.1
  rw [lastStored_of_keys hkeys, hlast, Option.map_some, cString_eq_self (h key v hlast).2.2]

/-! ## Calls -/

variable {host : Host} {sst : SstFormat} {options : Options} {disk : Disk} {db db' : DBImpl}
  {calls : List Call}

theorem ops_concat_op (calls : List Call) (op : Op) :
    ops (calls ++ [.op op]) = ops calls ++ [op] := by
  induction calls with
  | nil => rfl
  | cons c calls ih =>
      cases c with
      | op op' => simp [ops, ih]
      | close => simp [ops, ih]

theorem ops_concat_close (calls : List Call) : ops (calls ++ [.close]) = ops calls := by
  induction calls with
  | nil => rfl
  | cons c calls ih =>
      cases c with
      | op op' => simp [ops, ih]
      | close => simp [ops, ih]

/-- Every operation asserts that the database is open before it does anything. -/
theorem step_of_closed (hclosed : db.closed = true) (op : Op) :
    db.step host sst op = .error .assertion := by
  have hcheck : require Fault.assertion (db.closed = false) = .error .assertion := by
    rw [require, if_neg (by simp [hclosed])]
  cases op with
  | write w =>
      cases w with
      | put flips key value => simp only [step, write, put, hcheck, error_bind]
      | delete flips key => simp only [step, write, delete, hcheck, error_bind]
  | get key => simp only [step, get, hcheck, error_bind]

theorem close_of_closed (hclosed : db.closed = true) :
    db.close host sst = .ok (db, Status.success) := by
  unfold close
  rw [if_neg (by simp [hclosed])]
  rfl

/-- `Close` leaves a closed database: it was closed before, or its memtable
counts a key. -/
def Seals (db : DBImpl) : Prop := db.closed = true ∨ 0 < db.memTable.getSize

instance (db : DBImpl) : Decidable db.Seals := inferInstanceAs (Decidable (_ ∨ _))

theorem seals_iff_closed (hclose : db.call host sst .close = .ok db') :
    db.Seals ↔ db'.closed = true := by
  rcases bind_eq_ok.1 hclose with ⟨⟨db₁, status⟩, hrun, heq⟩
  cases heq
  unfold close at hrun
  split at hrun
  · rename_i hcond
    rcases bind_eq_ok.1 hrun with ⟨db₂, -, hrun⟩
    cases hrun
    exact ⟨fun _ => rfl, fun _ => Or.inr hcond.2⟩
  · rename_i hcond
    cases hrun
    constructor
    · rintro (hclosed | hpos)
      · exact hclosed
      · by_contra hopen
        exact hcond ⟨by simpa using hopen, hpos⟩
    · exact Or.inl

/-! ## Runs -/

/-- The map of the C strings that were written is, while the database is open,
that of the memtable over the tables, and that of the tables behind `Close`. -/
structure Holds (host : Host) (sst : SstFormat) (options : Options) (disk : Disk)
    (calls : List Call) (db : DBImpl) : Prop where
  flushLog : FlushLog host sst options disk.files db
  fromWrites : FromWrites (writes (ops calls)) db.flushes
  whileOpen : db.closed = false → ∃ mem cached, Tracks host db mem cached ∧
    overlay (layers mem db.flushes) = lastStored (writes (ops calls))
  onceClosed : db.closed = true →
    overlay (db.flushes.map fun f => toMap f.entries) = lastStored (writes (ops calls))

theorem openDB_holds (options : Options) (disk : Disk) :
    Holds host sst options disk [] (openDB options disk) where
  flushLog := openDB_flushLog host sst options disk
  fromWrites := by simp [FromWrites, openDB]
  whileOpen := fun _ => ⟨_, _, openDB_tracks host options disk, rfl⟩
  onceClosed := by
    intro hclosed
    cases hclosed

theorem Holds.op (h : Holds host sst options disk calls db) {op : Op}
    (hrun : db.step host sst op = .ok db') :
    Holds host sst options disk (calls ++ [.op op]) db' := by
  have hopen : db.closed = false := by
    by_contra hclosed
    rw [step_of_closed (by simpa using hclosed)] at hrun
    cases hrun
  rcases h.whileOpen hopen with ⟨mem, cached, htracks, hmap⟩
  rcases step_flushLog htracks h.flushLog hrun with ⟨hlog, hclosed, -⟩
  constructor
  · exact hlog
  · rw [ops_concat_op]
    exact step_fromWrites htracks hmap h.fromWrites hrun
  · intro _
    rw [ops_concat_op]
    exact step_layers htracks hmap hrun
  · intro hclosed'
    rw [hclosed, hopen] at hclosed'
    cases hclosed'

theorem Holds.close (h : Holds host sst options disk calls db)
    (hrun : db.call host sst .close = .ok db') :
    Holds host sst options disk (calls ++ [.close]) db' := by
  rcases bind_eq_ok.1 hrun with ⟨⟨db₁, status⟩, hclose, heq⟩
  cases heq
  have hstays : Holds host sst options disk (calls ++ [.close]) db := by
    constructor
    · exact h.flushLog
    · rw [ops_concat_close]
      exact h.fromWrites
    · rw [ops_concat_close]
      exact h.whileOpen
    · rw [ops_concat_close]
      exact h.onceClosed
  cases hclosed : db.closed with
  | true =>
      -- a further `Close`
      rw [close_of_closed hclosed] at hclose
      cases hclose
      exact hstays
  | false =>
      rcases h.whileOpen hclosed with ⟨mem, cached, htracks, hmap⟩
      rcases close_cases htracks hclose with ⟨rfl, -⟩ | ⟨-, db₂, f, hflush, rfl⟩
      · exact hstays
      · constructor
        · exact { hflush.flushLog h.flushLog with }
        · rw [ops_concat_close]
          exact hflush.fromWrites hmap h.fromWrites
        · intro hopen
          cases hopen
        · intro _
          rw [ops_concat_close, ← hmap, ← hflush.layers, layers, overlay_push_empty]

theorem run_holds (hrun : run (call host sst) (openDB options disk) calls = .ok db) :
    Holds host sst options disk calls db := by
  refine run_history_invariant (Holds host sst options disk) (openDB_holds options disk) ?_ hrun
  intro calls db c db' h hcall
  cases c with
  | op op => exact h.op hcall
  | close => exact h.close hcall

/-- Flushes only add to files, so what one wrote stays in its file. -/
theorem replay_contains {files : FileId → Option Bytes} {fs : List Flush} {f : Flush}
    (hf : f ∈ fs) : ∃ before after, replay files fs f.file = some (before ++ f.bytes ++ after) := by
  induction fs with
  | nil => simp at hf
  | cons g fs ih =>
      rw [replay_cons, Flush.apply]
      rcases List.mem_cons.1 hf with rfl | hf
      · exact ⟨(replay files fs f.file).getD [], [], by simp⟩
      · rcases ih hf with ⟨before, after, hstored⟩
        by_cases hfile : f.file = g.file
        · refine ⟨before, after ++ g.bytes, ?_⟩
          rw [hfile, Function.update_self, ← hfile, hstored]
          simp
        · exact ⟨before, after, by rw [Function.update_of_ne hfile, hstored]⟩

/-- The table of a flush holds the pairs that have a key. -/
theorem Holds.tableHolds {fm : FloatMath} (h : Holds host (sstFormat fm) options disk calls db)
    (hshort : ∀ w ∈ writes (ops calls), w.bytes < 2 ^ 31) {f : Flush} (hf : f ∈ db.flushes) :
    TableHolds db f (withKey f.entries) where
  flushed := fun p hp => List.mem_of_mem_filter hp
  records := by
    have hbuild : SSTableBuilder.build fm (asInt32 f.entries.length) f.entries = .ok f.bytes :=
      h.flushLog.flushes.bytes f hf
    rw [← build_withKey] at hbuild
    refine build_holdsRecords (withKey_keys f.entries) ?_ hbuild
    intro p hp
    exact h.fromWrites.short hshort hf p (List.mem_of_mem_filter hp)
  stored := by
    rw [h.flushLog.files]
    exact replay_contains hf

/-- A table holds no pair without a key and none with a NUL byte. -/
theorem Holds.persisted_iff {fm : FloatMath} (h : Holds host (sstFormat fm) options disk calls db)
    (hclosed : db.closed = true) (hshort : ∀ w ∈ writes (ops calls), w.bytes < 2 ^ 31) :
    Persisted db (writes (ops calls)) ↔ LeavesTablePairs (writes (ops calls)) := by
  constructor
  · rintro ⟨pairs, htables, hpairs⟩ key v hlast
    -- the table that answers for the key
    rcases exists_of_overlay (hpairs key v hlast) with ⟨m, hm, hkey⟩
    rcases List.mem_map.1 hm with ⟨f, hf, rfl⟩
    have hholds := htables f hf
    have hmem := mem_of_toMap hkey
    rcases hholds.records with ⟨parts, hrecords, hflatten⟩
    have hshort' := h.fromWrites.short hshort hf
    obtain ⟨w, -, rfl, rfl⟩ := h.fromWrites f hf _ (hholds.flushed hmem)
    refine ⟨?_, zero_notMem_cString _, zero_notMem_cString _⟩
    rw [← hflatten] at hmem
    refine hrecords.keys (fun p hp => hshort' p (hholds.flushed ?_)) _ hmem
    rwa [hflatten] at hp
  · intro hleaves
    refine ⟨fun f => withKey f.entries, fun f hf => h.tableHolds hshort hf, ?_⟩
    intro key v hlast
    have hmaps : (db.flushes.map fun f => toMap (withKey f.entries)) =
        (db.flushes.map Flush.entries).map fun entries => toMap (withKey entries) := by
      rw [List.map_map]
      rfl
    have hentries : (db.flushes.map Flush.entries).map toMap =
        db.flushes.map fun f => toMap f.entries := List.map_map
    rw [hmaps, overlay_withKey, if_neg (hleaves key v hlast).1, hentries, h.onceClosed hclosed]
    exact hleaves.lastStored hlast

/-- In every state of every run, what is promised behind `Close` holds exactly
if the database is closed and the last writes can be in tables. -/
theorem Holds.final_iff {fm : FloatMath} (h : Holds host (sstFormat fm) options disk calls db)
    (hshort : ∀ w ∈ writes (ops calls), w.bytes < 2 ^ 31) :
    Final host (sstFormat fm) db (writes (ops calls)) ↔
      db.closed = true ∧ LeavesTablePairs (writes (ops calls)) := by
  constructor
  · intro hfinal
    exact ⟨hfinal.closed, (h.persisted_iff hfinal.closed hshort).1 hfinal.persisted⟩
  · rintro ⟨hclosed, hleaves⟩
    exact ⟨(h.persisted_iff hclosed hshort).2 hleaves, hclosed, step_of_closed hclosed,
      close_of_closed hclosed⟩

/-- Where `Close` seals the database, a run with a `Close` ends with one: no
operation after the first one would have returned. -/
theorem ends_with_close
    (hseals : ∀ pre s t, pre ++ [.close] <+: calls →
      run (call host sst) (openDB options disk) pre = .ok s → s.call host sst .close = .ok t →
        s.Seals)
    (hrun : run (call host sst) (openDB options disk) calls = .ok db) (hmem : .close ∈ calls) :
    ∃ pre s, calls = pre ++ [.close] ∧ run (call host sst) (openDB options disk) pre = .ok s ∧
      s.call host sst .close = .ok db := by
  induction calls using List.reverseRecOn generalizing db with
  | nil => simp at hmem
  | append_singleton calls c ih =>
      rcases run_concat_ok.1 hrun with ⟨s, hs, hcall⟩
      cases c with
      | close => exact ⟨calls, s, rfl, hs, hcall⟩
      | op op =>
          exfalso
          have hbefore : .close ∈ calls := by simpa using hmem
          have hseals' : ∀ pre (s t : DBImpl), pre ++ [.close] <+: calls → _ → _ → s.Seals :=
            fun pre s t hpre => hseals pre s t (hpre.trans (List.prefix_append calls [.op op]))
          rcases ih hseals' hs hbefore with ⟨pre, r, rfl, hr, hclose⟩
          have hclosed := (seals_iff_closed hclose).1
            (hseals' pre r s (List.prefix_refl _) hr hclose)
          rw [call, step_of_closed hclosed] at hcall
          cases hcall

theorem ops_subset {calls' : List Call} (hpre : calls' <+: calls) :
    writes (ops calls') ⊆ writes (ops calls) := by
  rcases hpre with ⟨more, rfl⟩
  induction more using List.reverseRecOn with
  | nil =>
      rw [List.append_nil]
      exact List.Subset.refl _
  | append_singleton more c ih =>
      rw [← List.append_assoc]
      cases c with
      | close => rwa [ops_concat_close]
      | op op =>
          rw [ops_concat_op]
          cases op with
          | get key => rwa [writes_concat_get]
          | write w =>
              rw [writes_concat_write]
              exact List.Subset.trans ih (List.subset_append_left _ _)

end DBImpl

open DBImpl

end Smallkv
