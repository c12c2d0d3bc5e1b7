import Smallkv.DB.Determined

/-!
# DB.LogContents — what is in the log

Through any calls, closings and new starts the log grows by one frame for each
`Put` and `Delete`, and by nothing else. A frame holds what is left of the payload
as a C string: for a key of less than 16 MiB a part of its length, and no byte of
the key or of the value (`log_holds_lengths`).
-/

namespace Smallkv

open Fallible

/-- The C string of a payload that starts with this key: the length of the key as
far as its first zero byte. -/
def loggedOf (key : Bytes) : Bytes := cString (encodeFixed32 key.length)

theorem length_loggedOf_le (key : Bytes) : (loggedOf key).length ≤ 4 := by
  have hpre : loggedOf key <+: encodeFixed32 key.length := List.takeWhile_prefix _
  simpa using hpre.length_le

/-- What `Put` and `Delete` add to the log. -/
theorem walAppend_frame {crc32c : Bytes → UInt32} {w w' : FileWriter} {key value : Bytes}
    (hkey : key.length < 2 ^ 24) (h : walAppend crc32c w key value = .ok w') :
    w'.buffer = [] ∧ w'.file = w.stream ++ walFrame crc32c (loggedOf key) := by
  -- the highest byte of the length is the first NUL or comes behind it
  have hzero : (0 : Byte) ∈ encodeFixed32 key.length := by
    have hhigh : key.length / 256 / 256 / 256 = 0 := by omega
    simp [encodeFixed32, encodeFixed, hhigh]
  rcases walAppend_ok h with ⟨buf, hbuf, -, hadd⟩
  have hlog : cString buf = loggedOf key := by
    rw [(encodeKV_ok hbuf).2, List.append_assoc, List.append_assoc, cString_append hzero]
    rfl
  rw [hlog] at hadd
  have hshort : (loggedOf key).length < 2 ^ 31 := by
    have hle := length_loggedOf_le key
    omega
  rcases addLog_spec w hshort with ⟨w₁, hadd₁, hbuffer, hfile⟩
  obtain rfl := Except.ok.inj (hadd₁.symm.trans hadd)
  exact ⟨hbuffer, hfile⟩

namespace DBImpl

variable {host : Host} {sst : SstFormat} {db db' : DBImpl}

theorem memTableToSST_walWriter (hrun : db.memTableToSST host sst = .ok db') :
    db'.walWriter = db.walWriter := by
  rcases bind_eq_ok.1 hrun with ⟨content, -, hrun⟩
  rcases bind_eq_ok.1 hrun with ⟨entries, -, hrun⟩
  rcases bind_eq_ok.1 hrun with ⟨bytes, -, hrun⟩
  cases hrun
  rfl

/-- Only the first step of a write has to do with the log. -/
theorem execStage_walWriter {s : Stage} (hrun : execStage host sst db s = .ok db') :
    match s with
    | .log key value => walAppend host.crc32c db.walWriter key value = .ok db'.walWriter
    | _ => db'.walWriter = db.walWriter := by
  cases s with
  | log key value =>
      rcases writeLog_ok hrun with ⟨w, hw, rfl⟩
      exact hw
  | putMemTable flips key value =>
      rcases bind_eq_ok.1 hrun with ⟨present, -, hrun⟩
      dsimp only at hrun
      split at hrun
      · rcases bind_eq_ok.1 hrun with ⟨t, -, hrun⟩
        cases hrun
        rfl
      · rcases bind_eq_ok.1 hrun with ⟨t, -, hrun⟩
        cases hrun
        rfl
  | deleteMemTable flips key =>
      rcases bind_eq_ok.1 hrun with ⟨present, -, hrun⟩
      dsimp only at hrun
      split at hrun
      · rcases bind_eq_ok.1 hrun with ⟨t, -, hrun⟩
        cases hrun
        rfl
      · rcases bind_eq_ok.1 hrun with ⟨t, -, hrun⟩
        cases hrun
        rfl
  | putCache key value =>
      rcases bind_eq_ok.1 hrun with ⟨c, -, hrun⟩
      cases hrun
      rfl
  | eraseCache key =>
      rcases bind_eq_ok.1 hrun with ⟨c, -, hrun⟩
      cases hrun
      rfl
  | flush =>
      replace hrun : db.flushIfFull host sst = .ok db' := hrun
      unfold flushIfFull at hrun
      split at hrun
      · rcases bind_eq_ok.1 hrun with ⟨db₁, hflush, hrun⟩
        have hwriter := memTableToSST_walWriter hflush
        cases hrun
        exact hwriter
      · cases hrun
        rfl

/-- A write adds its frame to the log. -/
theorem write_walWriter {w : Write} (hrun : db.write host sst w = .ok db') :
    walAppend host.crc32c db.walWriter w.key w.value = .ok db'.walWriter := by
  rw [write_eq_run host sst (open_of_write_ok hrun)] at hrun
  cases w with
  | put flips key value =>
      rcases bind_eq_ok.1 hrun with ⟨db₁, hlog, hrun⟩
      rcases bind_eq_ok.1 hrun with ⟨db₂, hmem, hrun⟩
      rcases bind_eq_ok.1 hrun with ⟨db₃, hcache, hrun⟩
      rcases bind_eq_ok.1 hrun with ⟨db₄, hflush, hrun⟩
      cases hrun
      rw [execStage_walWriter hflush, execStage_walWriter hcache, execStage_walWriter hmem]
      exact execStage_walWriter hlog
  | delete flips key =>
      rcases bind_eq_ok.1 hrun with ⟨db₁, hlog, hrun⟩
      rcases bind_eq_ok.1 hrun with ⟨db₂, hmem, hrun⟩
      rcases bind_eq_ok.1 hrun with ⟨db₃, hcache, hrun⟩
      rcases bind_eq_ok.1 hrun with ⟨db₄, hflush, hrun⟩
      cases hrun
      rw [execStage_walWriter hflush, execStage_walWriter hcache, execStage_walWriter hmem]
      exact execStage_walWriter hlog

theorem close_walWriter {status : DBStatus} (hrun : db.close host sst = .ok (db', status)) :
    db'.walWriter = db.walWriter := by
  unfold close at hrun
  split at hrun
  · rcases bind_eq_ok.1 hrun with ⟨db₁, hflush, hrun⟩
    have hwriter := memTableToSST_walWriter hflush
    cases hrun
    exact hwriter
  · cases hrun
    rfl

/-- The key that an event writes. -/
def Event.writtenKey : Event → Option Bytes
  | .call (.op (.write w)) => some w.key
  | _ => none

/-- The log is what it was opened with and one frame for each write, and nothing
waits in the buffer. -/
structure Logged (host : Host) (wal : Bytes) (events : List Event) (db : DBImpl) : Prop where
  buffer : db.walWriter.buffer = []
  file : db.walWriter.file =
    wal ++ ((events.filterMap Event.writtenKey).map loggedOf).flatMap (walFrame host.crc32c)

variable {wal : Bytes} {events : List Event}

/-- An event that writes nothing. -/
theorem Logged.silent (h : Logged host wal events db) {e : Event} (he : e.writtenKey = none)
    (hbuffer : db'.walWriter.buffer = []) (hfile : db'.walWriter.file = db.walWriter.file) :
    Logged host wal (events ++ [e]) db' where
  buffer := hbuffer
  file := by
    rw [hfile, h.file, List.filterMap_append]
    simp [he]

theorem Logged.event (h : Logged host wal events db) {options : Options} {e : Event}
    (hkey : ∀ key, e.writtenKey = some key → key.length < 2 ^ 24)
    (hrun : DBImpl.event host sst options db e = .ok db') : Logged host wal (events ++ [e]) db' := by
  cases e with
  | restart cacheSize =>
      cases hrun
      exact h.silent rfl rfl rfl
  | call c =>
      cases c with
      | close =>
          rcases bind_eq_ok.1 hrun with ⟨⟨db₁, status⟩, hclose, hrun⟩
          cases hrun
          have hwriter := close_walWriter hclose
          exact h.silent rfl (by rw [hwriter, h.buffer]) (by rw [hwriter])
      | op op =>
          cases op with
          | get key =>
              rcases bind_eq_ok.1 hrun with ⟨⟨db₁, status, out⟩, hget, hrun⟩
              cases hrun
              have hwriter := get_walWriter hget
              exact h.silent rfl (by rw [hwriter, h.buffer]) (by rw [hwriter])
          | write w =>
              rcases walAppend_frame (hkey w.key rfl) (write_walWriter hrun) with ⟨hbuffer, hfile⟩
              refine ⟨hbuffer, ?_⟩
              rw [hfile, FileWriter.stream, h.buffer, List.append_nil, h.file, List.filterMap_append,
                List.append_assoc]
              simp [Event.writtenKey]

end DBImpl

open DBImpl

/-- Whatever is called, closed and started again, with keys of less than 16 MiB:
the log holds what it was opened with and, frame by frame, for each write in its
order the length of the key as far as its first zero byte; a new log reads back as
exactly this. -/
theorem log_holds_lengths (host : Host) (sst : SstFormat) (options : Options) (disk : Disk)
    (events : List Event)
    (hkeys : ∀ key ∈ events.filterMap Event.writtenKey, key.length < 2 ^ 24) {db : DBImpl}
    (hrun : run (event host sst options) (openDB options disk) events = .ok db) :
    db.walWriter.buffer = [] ∧
      db.walWriter.file = disk.wal ++
        ((events.filterMap Event.writtenKey).map loggedOf).flatMap (walFrame host.crc32c) ∧
      (disk.wal = [] → decodeFrames host.crc32c db.walWriter.file =
        some ((events.filterMap Event.writtenKey).map loggedOf)) := by
  have hlogged : Logged host disk.wal events db := by
    refine run_prefix_invariant (Logged host disk.wal) ⟨rfl, by simp [openDB, FileWriter.openFile]⟩
      ?_ hrun
    intro as db₁ e db₂ hpre h hevent
    refine h.event (fun key hkey => hkeys key ?_) hevent
    exact List.mem_filterMap.2 ⟨e, hpre.subset (by simp), hkey⟩
  refine ⟨hlogged.buffer, hlogged.file, ?_⟩
  intro hnew
  rw [hlogged.file, hnew, List.nil_append]
  refine decodeFrames_flatMap ?_
  intro log hlog
  rcases List.mem_map.1 hlog with ⟨key, -, rfl⟩
  have hle := length_loggedOf_le key
  omega

/-- A pair and a deletion, with a new start between them. -/
theorem log_holds_lengths_restart :
    ∃ db, run (event plainHost plainFormat Options.default) (openDB Options.default Disk.empty)
        [.call (.op (.write (.put [] (ascii "ab") (ascii "x")))), .restart 1,
          .call (.op (.write (.delete [] (ascii "c"))))] = .ok db ∧
      db.walWriter.buffer = [] ∧
        db.walWriter.file = [] ++
          (([ascii "ab", ascii "c"].map loggedOf).flatMap (walFrame plainHost.crc32c)) ∧
        (([] : Bytes) = [] → decodeFrames plainHost.crc32c db.walWriter.file =
          some ([ascii "ab", ascii "c"].map loggedOf)) :=
  ⟨_, rfl, log_holds_lengths plainHost plainFormat Options.default Disk.empty
    [.call (.op (.write (.put [] (ascii "ab") (ascii "x")))), .restart 1,
      .call (.op (.write (.delete [] (ascii "c"))))] (by decide) rfl⟩

end Smallkv
