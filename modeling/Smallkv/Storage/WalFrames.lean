import Smallkv.Storage.Path
import Smallkv.Storage.Wal

/-!
# Storage.WalFrames — a log file frame by frame

What a run of `AddLog` leaves in a new file, and how it reads back when every
frame is taken as it stands: its checksum is returned and not checked.
-/

namespace Smallkv

open Fallible PrefixCode

/-- `checksum(4B) | len(4B) | data` at the front of a stream. -/
def splitFrame (stream : Bytes) : Option ((ℕ × Bytes) × Bytes) := do
  let (checksum, stream) ← takeFixed32 stream
  let (len, stream) ← takeFixed32 stream
  let (log, rest) ← takeBytes len stream
  pure ((checksum, log), rest)

/-- The frames of a file, from left to right. -/
def splitFrames (file : Bytes) : Option (List (ℕ × Bytes)) :=
  decodeAll (fun _ => splitFrame) (fun _ _ => ()) () file

/-- A frame of a log, as it reads back. -/
def frameOf (crc32c : Bytes → UInt32) (log : Bytes) : ℕ × Bytes := ((crc32c log).toNat, log)

/-- The bytes of a frame. -/
def frameBytes (frame : ℕ × Bytes) : Bytes :=
  encodeFixed32 frame.1 ++ encodeFixed32 frame.2.length ++ frame.2

/-- The logs are in the file, frame by frame, and nothing waits in the buffer. -/
structure HoldsFrames (crc32c : Bytes → UInt32) (logs : List Bytes) (w : FileWriter) : Prop where
  buffer_nil : w.buffer = []
  file_eq : w.file = logs.flatMap (walFrame crc32c)
  reads_back : splitFrames w.file = some (logs.map (frameOf crc32c))

variable {crc32c : Bytes → UInt32}

theorem splitFrame_append {frame : ℕ × Bytes}
    (h : frame.1 < 2 ^ 32 ∧ frame.2.length < 2 ^ 32) (rest : Bytes) :
    splitFrame (frameBytes frame ++ rest) = some (frame, rest) := by
  simp only [splitFrame, frameBytes, List.append_assoc, takeFixed32_append h.1,
    takeFixed32_append h.2, takeBytes_append rfl, Option.bind_eq_bind, Option.bind_some,
    Option.pure_def]

/-- Frames one after the other are read back one by one. -/
theorem splitFrames_flatMap {logs : List Bytes} (hlen : ∀ log ∈ logs, log.length < 2 ^ 32) :
    splitFrames (logs.flatMap (walFrame crc32c)) = some (logs.map (frameOf crc32c)) := by
  have hframes : logs.flatMap (walFrame crc32c) =
      (logs.map (frameOf crc32c)).flatMap frameBytes := by
    rw [List.flatMap_map]
    rfl
  rw [hframes, ← encodeAll_stateless, splitFrames]
  refine decodeAll_encodeAll (fun _ frame rest h => splitFrame_append h rest) ?_ () ?_
  · intro _ frame hnil
    simp [frameBytes, encodeFixed32, encodeFixed] at hnil
  · intro frame hframe
    rcases List.mem_map.1 hframe with ⟨log, hlog, rfl⟩
    exact ⟨(crc32c log).toNat_lt, hlen log hlog⟩

/-- One more log is one more frame. -/
theorem addLog_holdsFrames {logs : List Bytes} {w : FileWriter} (h : HoldsFrames crc32c logs w)
    {log : Bytes} (hlen : ∀ l ∈ logs ++ [log], l.length < 2 ^ 31) :
    ∃ w', addLog crc32c w log = .ok w' ∧ HoldsFrames crc32c (logs ++ [log]) w' := by
  have hspec : ∃ w', addLog crc32c w log = .ok w' ∧ w'.buffer = [] ∧
      w'.file = w.stream ++ walFrame crc32c log := addLog_spec w (hlen log (by simp))
  rcases hspec with ⟨w', hadd, hbuffer, hfile⟩
  have hfile' : w'.file = (logs ++ [log]).flatMap (walFrame crc32c) := by
    rw [hfile, FileWriter.stream, h.buffer_nil, List.append_nil, h.file_eq, List.flatMap_append,
      List.flatMap_singleton]
  refine ⟨w', hadd, hbuffer, hfile', ?_⟩
  rw [hfile']
  refine splitFrames_flatMap ?_
  intro l hl
  have hlt := hlen l hl
  omega

theorem run_holdsFrames {logs : List Bytes} (hlen : ∀ log ∈ logs, log.length < 2 ^ 31) :
    ∃ w, run (addLog crc32c) (FileWriter.openFile []) logs = .ok w ∧
      HoldsFrames crc32c logs w := by
  induction logs using List.reverseRecOn with
  | nil => exact ⟨_, rfl, rfl, rfl, rfl⟩
  | append_singleton logs log ih =>
      rcases ih fun l hl => hlen l (List.mem_append_left _ hl) with ⟨w, hrun, h⟩
      rcases addLog_holdsFrames h hlen with ⟨w', hadd, h'⟩
      exact ⟨w', run_concat_ok.2 ⟨w, hrun, hadd⟩, h'⟩

/-- Logs of less than 2 GiB that are added to a new file are all accepted, and
behind each of them the file holds exactly the frames so far and reads back as
the logs with their checksums. -/
theorem wal_roundTrip (crc32c : Bytes → UInt32) {logs : List Bytes}
    (hlen : ∀ log ∈ logs, log.length < 2 ^ 31) :
    (∃ w, run (addLog crc32c) (FileWriter.openFile []) logs = .ok w) ∧
      Always (addLog crc32c) (HoldsFrames crc32c) (FileWriter.openFile []) logs := by
  constructor
  · rcases run_holdsFrames hlen with ⟨w, hrun, -⟩
    exact ⟨w, hrun⟩
  · intro done hpre w hrun
    rcases run_holdsFrames (fun l hl => hlen l (hpre.subset hl)) with ⟨w', hrun', h⟩
    obtain rfl : w = w' := Except.ok.inj (hrun.symm.trans hrun')
    exact h

/-- The checksums of the empty log and of a letter. -/
def letterCrc (log : Bytes) : UInt32 := if log = ascii "a" then 0xc1d04330 else 0

theorem wal_roundTrip_letter :
    (∃ w, run (addLog letterCrc) (FileWriter.openFile []) [ascii "a", []] = .ok w) ∧
      Always (addLog letterCrc) (HoldsFrames letterCrc) (FileWriter.openFile [])
        [ascii "a", []] :=
  wal_roundTrip letterCrc (by decide)

end Smallkv
