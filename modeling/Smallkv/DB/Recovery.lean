import Smallkv.DB.Format

/-!
# DB.Recovery — what the log is worth after a crash

A crash can come between any two steps of a write. `Recoverable` says that the
log, read by its documented layout, starts with the operations that the memtable
has seen. Since what is logged is the payload's C string, the log never records
an operation (`decodeWal_walAppend`), so only the run without writes is
recoverable at every crash point.
-/

namespace Smallkv

open Fallible

namespace DBImpl

variable (host : Host) (sst : SstFormat)

/-- The operations that reached the memtable, a deletion as an empty value. -/
def applied (ss : List Stage) : List (Bytes × Bytes) :=
  ss.filterMap fun s => match s with
    | .putMemTable _ key value => some (key, value)
    | .deleteMemTable _ key => some (key, [])
    | _ => none

/-- The log decodes to a list that starts with the applied operations. -/
def Recoverable (db : DBImpl) (ops : List (Bytes × Bytes)) : Prop :=
  ∃ logged, decodeWal host.crc32c db.walWriter.file = some logged ∧ ops <+: logged

/-- A write whose payload `EncodeKV` builds. -/
def Write.Accepted (w : Write) : Prop := ∃ buf, encodeKV w.key w.value = .ok buf

/-- The promise about a run of writes on a database with a new log: every step
that logs an accepted pair succeeds, after each step the log records what was applied, and
another run that leaves the same log has written the same pairs. -/
structure WalRecoverable (options : Options) (files : FileId → Option Bytes) (ws : List Write) :
    Prop where
  logs : ∀ pre key value post db, (∃ buf, encodeKV key value = .ok buf) →
    stages ws = pre ++ .log key value :: post →
    run (execStage host sst) (openDB options ⟨[], files⟩) pre = .ok db →
      ∃ db', db.writeLog host key value = .ok db'
  crash : ∀ pre post db, stages ws = pre ++ post →
    run (execStage host sst) (openDB options ⟨[], files⟩) pre = .ok db →
      Recoverable host db (applied pre)
  injective : ∀ ws' db db',
    run (execStage host sst) (openDB options ⟨[], files⟩) (stages ws) = .ok db →
    run (execStage host sst) (openDB options ⟨[], files⟩) (stages ws') = .ok db' →
    db.walWriter.file = db'.walWriter.file → applied (stages ws) = applied (stages ws')

variable {host sst}

/-! ## The log grows -/

/-- A frame has at least its header. -/
theorem walAppend_length {crc32c : Bytes → UInt32} {w w' : FileWriter} {key value : Bytes}
    (h : walAppend crc32c w key value = .ok w') : w.file.length + 8 ≤ w'.file.length := by
  rcases walAppend_ok h with ⟨buf, -, -, hadd⟩
  rw [(addLog_ok hadd).2]
  simp only [FileWriter.stream, List.length_append, length_encodeFixed32]
  omega

/-- No step makes the log shorter. -/
theorem execStage_length {db db' : DBImpl} {mem cached : Bytes → Option Bytes}
    (h : Tracks host db mem cached) {s : Stage} (hrun : execStage host sst db s = .ok db') :
    db.walWriter.file.length ≤ db'.walWriter.file.length ∧
      ∃ mem' cached', Tracks host db' mem' cached' := by
  cases s with
  | log key value =>
      rcases writeLog_ok hrun with ⟨w, hw, rfl⟩
      have hgrow := walAppend_length hw
      exact ⟨by simp only; omega, mem, cached, h.memTable, h.cache⟩
  | putMemTable flips key value =>
      rcases putMemTable_spec h flips key value with ⟨t, ht, hrep⟩
      obtain rfl := Except.ok.inj (ht.symm.trans hrun)
      exact ⟨le_rfl, _, cached, hrep, h.cache⟩
  | deleteMemTable flips key =>
      rcases deleteMemTable_spec h flips key with ⟨t, ht, hrep⟩
      obtain rfl := Except.ok.inj (ht.symm.trans hrun)
      exact ⟨le_rfl, _, cached, hrep, h.cache⟩
  | putCache key value =>
      rcases putCache_spec h key value with ⟨c, cached', hc, hrep, -⟩
      obtain rfl := Except.ok.inj (hc.symm.trans hrun)
      exact ⟨le_rfl, mem, cached', h.memTable, hrep⟩
  | eraseCache key =>
      rcases eraseCache_spec h key with ⟨c, hc, hrep⟩
      obtain rfl := Except.ok.inj (hc.symm.trans hrun)
      exact ⟨le_rfl, mem, _, h.memTable, hrep⟩
  | flush =>
      rcases flushIfFull_ok h hrun with ⟨-, rfl⟩ | ⟨-, f, hf, hnew⟩
      · exact ⟨le_rfl, mem, cached, h⟩
      · rw [hf.walWriter]
        exact ⟨le_rfl, _, _, hf.tracks hnew h⟩

theorem run_length {db db' : DBImpl} {mem cached : Bytes → Option Bytes}
    (h : Tracks host db mem cached) {ss : List Stage}
    (hrun : run (execStage host sst) db ss = .ok db') :
    db.walWriter.file.length ≤ db'.walWriter.file.length := by
  induction ss generalizing db mem cached with
  | nil =>
      cases hrun
      exact le_rfl
  | cons s ss ih =>
      rcases bind_eq_ok.1 hrun with ⟨db₁, hs, hss⟩
      rcases execStage_length h hs with ⟨hle, mem', cached', h'⟩
      exact hle.trans (ih h' hss)

/-- The first step of a write logs it, the second brings it to the memtable. -/
theorem Write.stages_eq (host : Host) (sst : SstFormat) (w : Write) :
    ∃ s ss, w.stages = .log w.key w.value :: s :: ss ∧
      applied [Stage.log w.key w.value, s] = [(w.key, w.value)] ∧
      ∀ (db : DBImpl) {mem cached : Bytes → Option Bytes}, Tracks host db mem cached →
        ∃ t, execStage host sst db s = .ok { db with memTable := t } := by
  cases w with
  | put flips key value =>
      refine ⟨_, _, rfl, rfl, ?_⟩
      intro db mem cached h
      rcases putMemTable_spec h flips key value with ⟨t, ht, -⟩
      exact ⟨t, ht⟩
  | delete flips key =>
      refine ⟨_, _, rfl, rfl, ?_⟩
      intro db mem cached h
      rcases deleteMemTable_spec h flips key with ⟨t, ht, -⟩
      exact ⟨t, ht⟩

/-- A first write that reached the log and the memtable is not recovered. -/
theorem not_recoverable_first {options : Options} {files : FileId → Option Bytes} {w : Write}
    {writer : FileWriter} {db : DBImpl}
    (hlog : walAppend host.crc32c (openDB options ⟨[], files⟩).walWriter w.key w.value = .ok writer)
    (hdb : db.walWriter = writer) : ¬ Recoverable host db [(w.key, w.value)] := by
  rintro ⟨logged, hdecode, ops, hops⟩
  have hnew : (openDB options ⟨[], files⟩).walWriter.stream = [] := FileWriter.stream_openFile []
  rw [hdb, ← hops] at hdecode
  exact decodeWal_walAppend hnew hlog ops hdecode

/-- A run that starts with a write leaves something in the log. -/
theorem run_writes_length {db db' : DBImpl} {mem cached : Bytes → Option Bytes}
    (h : Tracks host db mem cached) {w : Write} {ws : List Write}
    (hrun : run (execStage host sst) db (stages (w :: ws)) = .ok db') :
    db'.walWriter.file ≠ [] := by
  rcases w.stages_eq host sst with ⟨s, ss, hstages, -, -⟩
  rw [stages, List.flatMap_cons, hstages] at hrun
  rcases bind_eq_ok.1 hrun with ⟨dbLog, hlog, hrest⟩
  rcases writeLog_ok hlog with ⟨writer, hwriter, rfl⟩
  have hLog : Tracks host { db with walWriter := writer } mem cached := ⟨h.memTable, h.cache⟩
  have hfirst := walAppend_length hwriter
  have hgrow := run_length hLog hrest
  intro hempty
  rw [hempty] at hgrow
  simp only [List.length_nil] at hgrow
  omega

/-- No run that writes keeps the promise: the crash between the memtable step
and the cache step of its first write loses that write. -/
theorem not_walRecoverable_cons (host : Host) (sst : SstFormat) (options : Options)
    (files : FileId → Option Bytes) {w : Write} (haccepted : w.Accepted) (ws : List Write) :
    ¬ WalRecoverable host sst options files (w :: ws) := by
  intro h
  have htracks := openDB_tracks host options ⟨[], files⟩
  rcases w.stages_eq host sst with ⟨s, ss, hstages, happlied, hmem⟩
  have hsplit : stages (w :: ws) = [.log w.key w.value, s] ++ (ss ++ stages ws) := by
    rw [stages, List.flatMap_cons, hstages]
    rfl
  rcases h.logs [] w.key w.value (s :: ss ++ stages ws) _ haccepted hsplit rfl with ⟨dbLog, hlog⟩
  rcases writeLog_ok hlog with ⟨writer, hwriter, rfl⟩
  rcases hmem { openDB options ⟨[], files⟩ with walWriter := writer }
    ⟨htracks.memTable, htracks.cache⟩ with ⟨t, ht⟩
  have hcrash := h.crash [.log w.key w.value, s] (ss ++ stages ws) _ hsplit
    (by rw [run_cons, execStage, hlog, ok_bind, run_cons, ht, ok_bind, run_nil])
  rw [happlied] at hcrash
  exact not_recoverable_first hwriter rfl hcrash

end DBImpl

open DBImpl

/-- A run of writes keeps the promise of the log exactly when it writes nothing. -/
theorem walRecoverable_iff (host : Host) (sst : SstFormat) (options : Options)
    (files : FileId → Option Bytes) {ws : List Write} (haccepted : ∀ w ∈ ws, w.Accepted) :
    WalRecoverable host sst options files ws ↔ ws = [] := by
  have htracks := openDB_tracks host options ⟨[], files⟩
  constructor
  · intro h
    cases ws with
    | nil => rfl
    | cons w ws =>
        exact absurd h (not_walRecoverable_cons host sst options files (haccepted w (by simp)) ws)
  · rintro rfl
    constructor
    · intro pre key value post db _ hsplit
      simp [stages] at hsplit
    · intro pre post db hsplit hrun
      -- the only point to crash at is before anything was done
      have hpre : pre = [] := (List.append_eq_nil_iff.1 hsplit.symm).1
      subst hpre
      cases hrun
      exact ⟨[], rfl, List.nil_prefix⟩
    · intro ws' db db' hrun hrun' hsame
      cases hrun
      cases ws' with
      | nil => rfl
      | cons w ws' => exact absurd hsame.symm (run_writes_length htracks hrun')

/-- The payloads are accepted, and one write is enough to break the promise. -/
theorem walRecoverable_iff_delete :
    WalRecoverable plainHost plainFormat Options.default (fun _ => none)
        [.delete [] (ascii "a")] ↔ [Write.delete [] (ascii "a")] = [] :=
  walRecoverable_iff plainHost plainFormat Options.default (fun _ => none) fun w hw => by
    rw [List.mem_singleton.1 hw]
    exact ⟨_, rfl⟩

/-- `Put("a", "x")` on a new log is lost in a crash. -/
theorem put_not_recovered :
    ¬ WalRecoverable plainHost plainFormat Options.default (fun _ => none)
      [.put [] (ascii "a") (ascii "x")] :=
  not_walRecoverable_cons plainHost plainFormat Options.default (fun _ => none) ⟨_, rfl⟩ []

/-- What is logged of `Put("a", "x")` and of `Put("b", "y")` is the same byte. -/
example :
    (do cStringOfBuffer (← encodeKV (ascii "a") (ascii "x"))) = .ok [1] ∧
      (do cStringOfBuffer (← encodeKV (ascii "b") (ascii "y"))) = .ok [1] := by
  constructor
  · decide
  · decide

end Smallkv
