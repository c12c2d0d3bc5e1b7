import Smallkv.Storage.Codec

/-!
# Storage.FileWriter — the buffered file writer

`write` is taken to write everything it is given, so what the writer hands over
ends up in the file. Copies into the buffer are checked against its capacity:
the buffer of a `FileWriter` never holds more than `kBufferSize` bytes, and the
specifications say that no copy of the code is ever refused. The one law is
that file and buffer together grow by what is appended (`append_spec`).
-/

namespace Smallkv

open Fallible

/-- `BUFFER_SIZE`. -/
def kBufferSize : ℕ := 65536

/-- The file as written so far and `buffer[0, buffer_offset)`. -/
structure FileWriter where
  file : Bytes
  buffer : Bytes
  fits : buffer.length ≤ kBufferSize

namespace FileWriter

/-- A writer on a file with the given content, opened for appending. -/
def openFile (content : Bytes) : FileWriter := ⟨content, [], Nat.zero_le _⟩

/-- All bytes that were handed to the writer, persisted or not. -/
def stream (w : FileWriter) : Bytes := w.file ++ w.buffer

/-- `memcpy` to the end of the buffer. -/
def copyIn (w : FileWriter) (bytes : Bytes) : Exec FileWriter :=
  if h : (w.buffer ++ bytes).length ≤ kBufferSize then .ok ⟨w.file, w.buffer ++ bytes, h⟩
  else .error .badAccess

/-- `buf_persist` on the whole buffer. -/
def bufPersist (w : FileWriter) : FileWriter := ⟨w.stream, [], Nat.zero_le _⟩

def isBufferFull (w : FileWriter) : Bool := w.buffer.length = kBufferSize

/-- The loop of `append` that copies what did not fit. -/
def appendLoop : ℕ → FileWriter → Bytes → Exec FileWriter
  | 0, _, _ => .error .endless
  | fuel + 1, w, data =>
    if data = [] then pure w
    else do
      let w := if w.isBufferFull then w.bufPersist else w
      let needCpy := min data.length (kBufferSize - w.buffer.length)
      let w ← w.copyIn (data.take needCpy)
      appendLoop fuel w (data.drop needCpy)

/-- The part of `append` that takes the data in: into the buffer where it fits
with room to spare, else through it. -/
def takeIn (w : FileWriter) (data : Bytes) : Exec FileWriter :=
  let remainBufSize := kBufferSize - w.buffer.length
  if data.length < remainBufSize then w.copyIn data
  else do
    -- fill the buffer up, persist it, and copy the rest piece by piece
    let w ← w.copyIn (data.take remainBufSize)
    let rest := data.drop remainBufSize
    appendLoop (rest.length + 1) w.bufPersist rest

/-- `append(data, len, flush)`: a length of zero returns at once, whatever
`flush` says, and `len` bytes have to be there to be copied. -/
def append (w : FileWriter) (data : Bytes) (len : ℤ) (flush : Bool) : Exec FileWriter :=
  if len = 0 then pure w
  else do
    require .badAccess (0 ≤ len ∧ len ≤ data.length)
    let w ← w.takeIn (data.take len.toNat)
    pure (if flush then w.bufPersist else w)

def flush (w : FileWriter) : FileWriter := if w.buffer.length > 0 then w.bufPersist else w

/-- `sync`: what `fsync` adds is not visible in the content of the file. -/
def sync (w : FileWriter) : FileWriter := w.flush

/-- `close` flushes; the descriptor is not used afterwards. -/
def close (w : FileWriter) : FileWriter := w.flush

/-! ## Specifications -/

variable {w : FileWriter}

@[simp] theorem stream_openFile (content : Bytes) : (openFile content).stream = content := by
  simp [openFile, stream]

@[simp] theorem stream_bufPersist (w : FileWriter) : w.bufPersist.stream = w.stream := by
  simp [bufPersist, stream]

@[simp] theorem buffer_bufPersist (w : FileWriter) : w.bufPersist.buffer = [] := rfl

theorem copyIn_ok (w : FileWriter) {bytes : Bytes}
    (h : bytes.length ≤ kBufferSize - w.buffer.length) :
    ∃ w', w.copyIn bytes = .ok w' ∧ w'.stream = w.stream ++ bytes := by
  have hfits := w.fits
  have hle : (w.buffer ++ bytes).length ≤ kBufferSize := by
    simp only [List.length_append]
    omega
  exact ⟨⟨w.file, w.buffer ++ bytes, hle⟩, by simp only [copyIn, dif_pos hle], by simp [stream]⟩

theorem appendLoop_spec {fuel : ℕ} (w : FileWriter) {data : Bytes} (hfuel : data.length < fuel) :
    ∃ w', appendLoop fuel w data = .ok w' ∧ w'.stream = w.stream ++ data := by
  induction fuel generalizing w data with
  | zero => omega
  | succ fuel ih =>
      by_cases hdata : data = []
      · exact ⟨w, by simp [appendLoop, hdata], by simp [hdata]⟩
      · -- there is room for a byte, once a full buffer was persisted
        obtain ⟨w₁, hw₁, hstream₁, hroom⟩ :
            ∃ w₁, (if w.isBufferFull then w.bufPersist else w) = w₁ ∧ w₁.stream = w.stream ∧
              w₁.buffer.length < kBufferSize := by
          refine ⟨_, rfl, ?_⟩
          by_cases hfull : w.isBufferFull = true
          · rw [if_pos hfull]
            exact ⟨stream_bufPersist w, by simp [kBufferSize]⟩
          · rw [if_neg hfull]
            have hfits := w.fits
            simp only [isBufferFull, decide_eq_true_eq] at hfull
            exact ⟨rfl, by omega⟩
        have hpos := List.length_pos_of_ne_nil hdata
        have htake : (data.take (min data.length (kBufferSize - w₁.buffer.length))).length ≤
            kBufferSize - w₁.buffer.length := by
          simp only [List.length_take]
          omega
        rcases w₁.copyIn_ok htake with ⟨w₂, hcopy, hstream₂⟩
        have hdrop : (data.drop (min data.length (kBufferSize - w₁.buffer.length))).length < fuel := by
          simp only [List.length_drop]
          omega
        rcases ih w₂ hdrop with ⟨w₃, hloop, hstream₃⟩
        refine ⟨w₃, ?_, ?_⟩
        · rw [appendLoop, if_neg hdata]
          simp only [hw₁, hcopy, ok_bind, hloop]
        · rw [hstream₃, hstream₂, hstream₁, List.append_assoc, List.take_append_drop]

theorem takeIn_spec (w : FileWriter) (data : Bytes) :
    ∃ w', w.takeIn data = .ok w' ∧ w'.stream = w.stream ++ data := by
  unfold takeIn
  by_cases hlt : data.length < kBufferSize - w.buffer.length
  · rw [if_pos hlt]
    exact w.copyIn_ok hlt.le
  · rw [if_neg hlt]
    rcases w.copyIn_ok (List.length_take_le (kBufferSize - w.buffer.length) data) with
      ⟨w₁, hcopy, hstream₁⟩
    obtain ⟨w₂, hloop, hstream₂⟩ := appendLoop_spec w₁.bufPersist
      (Nat.lt_succ_self (data.drop (kBufferSize - w.buffer.length)).length)
    refine ⟨w₂, by rw [hcopy, ok_bind, hloop], ?_⟩
    rw [hstream₂, stream_bufPersist, hstream₁, List.append_assoc, List.take_append_drop]

/-- `append` of a whole byte string: file and buffer together grow by it, and a
flush leaves nothing in the buffer, unless there was nothing to append. -/
theorem append_spec (w : FileWriter) (data : Bytes) (flush : Bool) :
    ∃ w', w.append data data.length flush = .ok w' ∧ w'.stream = w.stream ++ data ∧
      (flush = true → data ≠ [] → w'.buffer = []) := by
  by_cases hdata : data = []
  · exact ⟨w, by simp [append, hdata], by simp [hdata], fun _ h => absurd hdata h⟩
  have hlen : (data.length : ℤ) ≠ 0 := by simpa using hdata
  have hin : (0 : ℤ) ≤ data.length ∧ (data.length : ℤ) ≤ data.length := by omega
  rcases w.takeIn_spec data with ⟨w₁, htake, hstream⟩
  refine ⟨if flush then w₁.bufPersist else w₁, ?_, ?_, ?_⟩
  · rw [append, if_neg hlen, require_of hin]
    simp [htake]
  · split <;> simp [hstream]
  · intro hflush _
    rw [if_pos hflush, buffer_bufPersist]

/-- Whatever `append` takes in is the beginning of the data. -/
theorem append_ok {w w' : FileWriter} {data : Bytes} {len : ℤ} {flush : Bool}
    (h : w.append data len flush = .ok w') : w'.stream = w.stream ++ data.take len.toNat := by
  unfold append at h
  split at h
  · -- nothing is appended
    rename_i hlen
    cases h
    simp [hlen]
  · rcases bind_eq_ok.1 h with ⟨-, -, h⟩
    rcases bind_eq_ok.1 h with ⟨w₁, htake, h⟩
    rcases w.takeIn_spec (data.take len.toNat) with ⟨w₂, htake', hstream⟩
    obtain rfl : w₁ = w₂ := Except.ok.inj (htake.symm.trans htake')
    cases h
    split <;> simp [hstream]

theorem stream_sync (w : FileWriter) : w.sync.stream = w.stream := by
  unfold sync flush
  split <;> simp

theorem buffer_sync (w : FileWriter) : w.sync.buffer = [] := by
  unfold sync flush
  split
  · rfl
  · rename_i h
    exact List.eq_nil_of_length_eq_zero (by omega)

/-- Behind a `sync` the file holds everything. -/
theorem file_sync (w : FileWriter) : w.sync.file = w.stream := by
  rw [← stream_sync w, stream, buffer_sync, List.append_nil]

end FileWriter

end Smallkv
