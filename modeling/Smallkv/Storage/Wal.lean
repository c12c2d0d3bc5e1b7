import Smallkv.Lib.PrefixCode
import Smallkv.Storage.FileWriter

/-!
# Storage.Wal — the write-ahead log

`encodeKV` is the payload the database builds for an operation, `addLog` frames
a log and makes it durable, and `walAppend` is how the database calls it: the
payload goes in as a `char *`, so what is logged ends at its first NUL. The
documented layout is read back by `decodeWal`.
-/

namespace Smallkv

open Fallible PrefixCode

/-- `EncodeKV`: the buffer has exactly the length that is written. -/
def encodeKV (key value : Bytes) : Exec Bytes := do
  require .assertion (value.length < 2 ^ 32 - 1)
  pure (encodeFixed32 key.length ++ key ++ encodeFixed32 value.length ++ value)

/-- `AddLog`: header, data, `sync`. -/
def addLog (crc32c : Bytes → UInt32) (w : FileWriter) (log : Bytes) : Exec FileWriter := do
  let header := encodeFixed32 (crc32c log).toNat ++ encodeFixed32 log.length
  let w ← w.append header 8 false
  let w ← w.append log (asInt32 log.length) true
  pure w.sync

/-- `EncodeKV(key, value, buf); wal_writer->AddLog(buf)`. -/
def walAppend (crc32c : Bytes → UInt32) (w : FileWriter) (key value : Bytes) :
    Exec FileWriter := do
  let buf ← encodeKV key value
  let log ← cStringOfBuffer buf
  addLog crc32c w log

/-! ## The documented layout -/

/-- `checksum(4B) | len(4B) | data`. -/
def walFrame (crc32c : Bytes → UInt32) (log : Bytes) : Bytes :=
  encodeFixed32 (crc32c log).toNat ++ encodeFixed32 log.length ++ log

/-- A frame at the front of a stream; its checksum has to be right. -/
def takeFrame (crc32c : Bytes → UInt32) (stream : Bytes) : Option (Bytes × Bytes) := do
  let (checksum, stream) ← takeFixed32 stream
  let (len, stream) ← takeFixed32 stream
  let (log, rest) ← takeBytes len stream
  if checksum = (crc32c log).toNat then some (log, rest) else none

/-- `key_len(4B) | key | val_len(4B) | val` at the front of a stream. -/
def takeKV (stream : Bytes) : Option ((Bytes × Bytes) × Bytes) := do
  let (keyLen, stream) ← takeFixed32 stream
  let (key, stream) ← takeBytes keyLen stream
  let (valueLen, stream) ← takeFixed32 stream
  let (value, rest) ← takeBytes valueLen stream
  pure ((key, value), rest)

/-- One pair and nothing behind it. -/
def decodeKV (log : Bytes) : Option (Bytes × Bytes) := do
  let (pair, rest) ← takeKV log
  if rest = [] then some pair else none

/-- The logs of a file, in order. -/
def decodeFrames (crc32c : Bytes → UInt32) (file : Bytes) : Option (List Bytes) :=
  decodeAll (fun _ => takeFrame crc32c) (fun _ _ => ()) () file

/-- The operations that a file records, in order. -/
def decodeWal (crc32c : Bytes → UInt32) (file : Bytes) : Option (List (Bytes × Bytes)) := do
  let logs ← decodeFrames crc32c file
  logs.mapM decodeKV

/-! ## Writing -/

variable {crc32c : Bytes → UInt32}

theorem addLog_spec (w : FileWriter) {log : Bytes} (hlen : log.length < 2 ^ 31) :
    ∃ w', addLog crc32c w log = .ok w' ∧ w'.buffer = [] ∧
      w'.file = w.stream ++ walFrame crc32c log := by
  rcases w.append_spec (encodeFixed32 (crc32c log).toNat ++ encodeFixed32 log.length) false with
    ⟨w₁, hheader, hstream₁, -⟩
  rcases w₁.append_spec log true with ⟨w₂, hdata, hstream₂, -⟩
  have hlen8 : ((encodeFixed32 (crc32c log).toNat ++ encodeFixed32 log.length).length : ℤ) = 8 := by
    simp
  have hint : asInt32 log.length = log.length := asInt32_of_lt (Int.natCast_nonneg _) (by omega)
  rw [hlen8] at hheader
  refine ⟨w₂.sync, ?_, w₂.buffer_sync, ?_⟩
  · simp [addLog, hheader, hint, hdata]
  · rw [w₂.file_sync, hstream₂, hstream₁, List.append_assoc]
    rfl

/-- Behind `AddLog` everything is in the file: what was there, the header, and
the part of the log that an `int32_t` length covers. -/
theorem addLog_ok {w w' : FileWriter} {log : Bytes} (h : addLog crc32c w log = .ok w') :
    w'.buffer = [] ∧ w'.file = w.stream ++
      (encodeFixed32 (crc32c log).toNat ++ encodeFixed32 log.length) ++
        log.take (asInt32 log.length).toNat := by
  rcases bind_eq_ok.1 h with ⟨w₁, hheader, h⟩
  rcases bind_eq_ok.1 h with ⟨w₂, hdata, h⟩
  cases h
  refine ⟨w₂.buffer_sync, ?_⟩
  rw [w₂.file_sync, FileWriter.append_ok hdata, FileWriter.append_ok hheader,
    List.take_of_length_le (by simp)]

/-- The payload is cut at its first NUL. -/
theorem walAppend_ok {w w' : FileWriter} {key value : Bytes}
    (h : walAppend crc32c w key value = .ok w') :
    ∃ buf, encodeKV key value = .ok buf ∧ 0 ∈ buf ∧ addLog crc32c w (cString buf) = .ok w' := by
  rcases bind_eq_ok.1 h with ⟨buf, hbuf, h⟩
  rcases bind_eq_ok.1 h with ⟨log, hlog, h⟩
  unfold cStringOfBuffer at hlog
  split at hlog
  · rename_i hzero
    cases hlog
    exact ⟨buf, hbuf, hzero, h⟩
  · cases hlog

theorem encodeKV_ok {key value buf : Bytes} (h : encodeKV key value = .ok buf) :
    value.length < 2 ^ 32 - 1 ∧
      buf = encodeFixed32 key.length ++ key ++ encodeFixed32 value.length ++ value := by
  rcases bind_eq_ok.1 h with ⟨u, hcheck, h⟩
  cases h
  exact ⟨require_eq_ok.1 hcheck, rfl⟩

/-- A cut payload is shorter than the payload. -/
theorem length_cString_lt {buf : Bytes} (hzero : 0 ∈ buf) : (cString buf).length < buf.length := by
  have hpre : cString buf <+: buf := List.takeWhile_prefix _
  refine lt_of_le_of_ne hpre.length_le fun heq => zero_notMem_cString buf ?_
  rwa [hpre.eq_of_length heq]

/-- A key of less than 16 MiB puts a NUL into its own length, so its payload is
logged, as far as that NUL. -/
theorem walAppend_progress (crc32c : Bytes → UInt32) (w : FileWriter) {key value : Bytes} (hkey : key.length < 2 ^ 24)
    (hvalue : value.length < 2 ^ 32 - 1) : ∃ w', walAppend crc32c w key value = .ok w' := by
  -- the highest byte of the key's length
  have hzero : (0 : Byte) ∈ encodeFixed32 key.length := by
    have hhigh : key.length / 256 / 256 / 256 = 0 := by omega
    simp [encodeFixed32, encodeFixed, hhigh]
  have hbuf : encodeKV key value =
      .ok (encodeFixed32 key.length ++ (key ++ encodeFixed32 value.length ++ value)) := by
    rw [encodeKV, require_of hvalue]
    simp
  have hlog : cStringOfBuffer
      (encodeFixed32 key.length ++ (key ++ encodeFixed32 value.length ++ value)) =
        .ok (cString (encodeFixed32 key.length)) := by
    rw [cStringOfBuffer, if_pos (by simp [hzero]), cString_append hzero]
  have hshort := length_cString_lt hzero
  rw [length_encodeFixed32] at hshort
  have hadd : ∃ w', addLog crc32c w (cString (encodeFixed32 key.length)) = .ok w' := by
    rcases addLog_spec w (show (cString (encodeFixed32 key.length)).length < 2 ^ 31 by omega) with
      ⟨w', hadd, -⟩
    exact ⟨w', hadd⟩
  rcases hadd with ⟨w', hadd⟩
  exact ⟨w', by rw [walAppend, hbuf, ok_bind, hlog, ok_bind, hadd]⟩

/-! ## Reading back -/

theorem takeFrame_walFrame {log : Bytes} (hlen : log.length < 2 ^ 32) (rest : Bytes) :
    takeFrame crc32c (walFrame crc32c log ++ rest) = some (log, rest) := by
  have hcrc : (crc32c log).toNat < 2 ^ 32 := (crc32c log).toNat_lt
  simp only [takeFrame, walFrame, List.append_assoc, takeFixed32_append hcrc,
    takeFixed32_append hlen, takeBytes_append rfl, Option.bind_eq_bind, Option.bind_some, if_true]

/-- Frames are read back as the logs they were written from. -/
theorem decodeFrames_flatMap {logs : List Bytes} (hlen : ∀ log ∈ logs, log.length < 2 ^ 32) :
    decodeFrames crc32c (logs.flatMap (walFrame crc32c)) = some logs := by
  rw [← encodeAll_stateless, decodeFrames]
  exact decodeAll_encodeAll (fun _ log rest hlog => takeFrame_walFrame hlog rest)
    (fun _ log => by simp [walFrame, encodeFixed32, encodeFixed]) () hlen

/-- What is taken for a pair is exactly as long as its parts and their lengths. -/
theorem takeKV_length {stream rest key value : Bytes}
    (h : takeKV stream = some ((key, value), rest)) :
    stream.length = 8 + key.length + value.length + rest.length := by
  simp only [takeKV, Option.pure_def, Option.bind_eq_bind, Option.bind_eq_some_iff, Prod.exists,
    Option.some.injEq, Prod.mk.injEq] at h
  rcases h with ⟨keyLen, s₁, h₁, key', s₂, h₂, valueLen, s₃, h₃, value', rest', h₄, hpair, rfl⟩
  rcases hpair with ⟨rfl, rfl⟩
  rcases takeFixed32_eq_some.1 h₁ with ⟨b₁, rfl, hb₁, -⟩
  rcases takeBytes_eq_some.1 h₂ with ⟨rfl, -⟩
  rcases takeFixed32_eq_some.1 h₃ with ⟨b₃, rfl, hb₃, -⟩
  rcases takeBytes_eq_some.1 h₄ with ⟨rfl, -⟩
  simp only [List.length_append, hb₁, hb₃]
  omega

theorem decodeKV_length {log key value : Bytes} (h : decodeKV log = some (key, value)) :
    log.length = 8 + key.length + value.length := by
  simp only [decodeKV, Option.bind_eq_bind, Option.bind_eq_some_iff, Prod.exists] at h
  rcases h with ⟨key', value', rest, htake, h⟩
  split at h
  · rename_i hrest
    cases h
    have hlen := takeKV_length htake
    rw [hrest, List.length_nil] at hlen
    exact hlen
  · cases h

/-- A pair is read back whatever follows it. -/
theorem takeKV_append {key value : Bytes} (hkey : key.length < 2 ^ 32)
    (hvalue : value.length < 2 ^ 32) (rest : Bytes) :
    takeKV (encodeFixed32 key.length ++ key ++ encodeFixed32 value.length ++ value ++ rest) =
      some ((key, value), rest) := by
  simp only [takeKV, List.append_assoc, takeFixed32_append hkey, takeFixed32_append hvalue,
    takeBytes_append rfl, Option.bind_eq_bind, Option.bind_some, Option.pure_def]

/-- The log of a file's first operation has been read off its front. -/
theorem decodeWal_cons {file : Bytes} {key value : Bytes} {ops : List (Bytes × Bytes)}
    (h : decodeWal crc32c file = some ((key, value) :: ops)) :
    ∃ log rest, takeFrame crc32c file = some (log, rest) ∧ decodeKV log = some (key, value) := by
  rcases Option.bind_eq_some_iff.1 h with ⟨logs, hlogs, hops⟩
  cases logs with
  | nil => simp at hops
  | cons log logs =>
      have hkv : decodeKV log = some (key, value) := by
        simp only [List.mapM_cons, Option.pure_def, Option.bind_eq_bind, Option.bind_eq_some_iff,
          Option.some.injEq, List.cons.injEq] at hops
        rcases hops with ⟨a, ha, as, -, rfl, -⟩
        exact ha
      have hne : file ≠ [] := by
        rintro rfl
        simp [decodeFrames, decodeAll, decodeLoop] at hlogs
      rcases decodeLoop_eq_some hne hlogs with ⟨a, rest, as, n, htake, -, -, hcons⟩
      rcases List.cons.inj hcons with ⟨rfl, -⟩
      exact ⟨_, rest, htake, hkv⟩

theorem takeFrame_length {file log rest : Bytes} (h : takeFrame crc32c file = some (log, rest)) :
    8 + log.length ≤ file.length := by
  simp only [takeFrame, Option.bind_eq_bind, Option.bind_eq_some_iff, Prod.exists] at h
  rcases h with ⟨checksum, s₁, h₁, len, s₂, h₂, log', rest', h₃, h₄⟩
  rcases takeFixed32_eq_some.1 h₁ with ⟨b₁, rfl, hb₁, -⟩
  rcases takeFixed32_eq_some.1 h₂ with ⟨b₂, rfl, hb₂, -⟩
  rcases takeBytes_eq_some.1 h₃ with ⟨rfl, -⟩
  split at h₄
  · simp only [Option.some.injEq, Prod.mk.injEq] at h₄
    rcases h₄ with ⟨rfl, rfl⟩
    simp only [List.length_append, hb₁, hb₂]
    omega
  · simp at h₄

/-- The first operation that goes into a new log is never read back. -/
theorem decodeWal_walAppend {w w' : FileWriter} {key value : Bytes} (hnew : w.stream = [])
    (h : walAppend crc32c w key value = .ok w') (ops : List (Bytes × Bytes)) :
    decodeWal crc32c w'.file ≠ some ((key, value) :: ops) := by
  intro hdecode
  rcases walAppend_ok h with ⟨buf, hbuf, hzero, hadd⟩
  rcases decodeWal_cons hdecode with ⟨log, rest, hframe, hkv⟩
  -- the file has room for a log that is shorter than the payload
  have hfile : w'.file.length ≤ 8 + (cString buf).length := by
    rw [(addLog_ok hadd).2, hnew]
    simp only [List.nil_append, List.length_append, length_encodeFixed32, List.length_take]
    omega
  have hpayload : buf.length = 8 + key.length + value.length := by
    rw [(encodeKV_ok hbuf).2]
    simp only [List.length_append, length_encodeFixed32]
    omega
  have hcut := length_cString_lt hzero
  have hlog := takeFrame_length hframe
  have hpair := decodeKV_length hkv
  omega

end Smallkv
