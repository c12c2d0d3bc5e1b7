import Smallkv.Storage.FileWriter

/-!
# Storage.WriterBuffer — the file writer at its buffer

`FileWriter` keeps the filled part of its buffer as a byte string. This is the
writer below it, as the code has it: an array of `BUFFER_SIZE` bytes, the offset
of the next free byte, and copies that name the ranges they read and write. A
copy or a `write` that leaves the buffer or the data is a fault. Each call does
to the filled part what `FileWriter` does (`append_refines`), so no call faults
and the stream law carries over (`calls_stream`).
-/

namespace Smallkv

open Fallible

/-- The members of a `FileWriter`, with the file behind its descriptor. The
offset can point to any byte of the buffer or right behind the last one, also
between two statements of a call. -/
structure WriterBuffer where
  file : Bytes
  buffer : Bytes
  bufferOffset : ℤ
  sized : buffer.length = kBufferSize
  offset_nonneg : 0 ≤ bufferOffset
  offset_le : bufferOffset ≤ kBufferSize

namespace WriterBuffer

/-- A writer on a file with the given content, opened for appending. -/
def openFile (content : Bytes) : WriterBuffer where
  file := content
  buffer := List.replicate kBufferSize 0
  bufferOffset := 0
  sized := List.length_replicate
  offset_nonneg := le_refl 0
  offset_le := Nat.cast_nonneg kBufferSize

/-- The bytes of `buf` from `pos` on are replaced by `bytes`. -/
def overwrite (buf : Bytes) (pos : ℕ) (bytes : Bytes) : Bytes :=
  buf.take pos ++ bytes ++ buf.drop (pos + bytes.length)

theorem length_overwrite {buf bytes : Bytes} {pos : ℕ} (h : pos + bytes.length ≤ buf.length) :
    (overwrite buf pos bytes).length = buf.length := by
  unfold overwrite
  simp only [List.length_append, List.length_take, List.length_drop]
  omega

theorem take_overwrite {buf : Bytes} {pos : ℕ} (bytes : Bytes) (h : pos ≤ buf.length) :
    (overwrite buf pos bytes).take (pos + bytes.length) = buf.take pos ++ bytes := by
  unfold overwrite
  have hlen : (buf.take pos ++ bytes).length = pos + bytes.length := by
    simp only [List.length_append, List.length_take]
    omega
  rw [← hlen, List.take_left']
  rfl

/-- `memcpy(buffer + buffer_offset, data + data_offset, n)`, after which the
offset moves on by `n`. -/
def copyIn (w : WriterBuffer) (data : Bytes) (dataOffset n : ℤ) : Exec WriterBuffer := do
  let bytes ← slice data dataOffset n
  if h : w.bufferOffset + bytes.length ≤ kBufferSize then
    .ok {
      file := w.file
      buffer := overwrite w.buffer w.bufferOffset.toNat bytes
      bufferOffset := w.bufferOffset + bytes.length
      sized := by
        have h0 := w.offset_nonneg
        rw [length_overwrite (by rw [w.sized]; omega), w.sized]
      offset_nonneg := by
        have h0 := w.offset_nonneg
        omega
      offset_le := h }
  else .error .badAccess

/-- `buf_persist(buffer, len)`: `write` reads `len` bytes of the buffer. -/
def bufPersist (w : WriterBuffer) (len : ℤ) : Exec WriterBuffer := do
  let bytes ← slice w.buffer 0 len
  pure {
    file := w.file ++ bytes
    buffer := w.buffer
    bufferOffset := 0
    sized := w.sized
    offset_nonneg := le_refl 0
    offset_le := Nat.cast_nonneg kBufferSize }

def isBufferFull (w : WriterBuffer) : Bool := w.bufferOffset = kBufferSize

/-- The loop persists the buffer before it copies into a full one. -/
def makeRoom (w : WriterBuffer) : Exec WriterBuffer :=
  if w.isBufferFull then w.bufPersist kBufferSize else pure w

/-- The loop of `append`; each round copies at least one byte. -/
def appendLoop : ℕ → WriterBuffer → Bytes → ℤ → ℤ → Exec WriterBuffer
  | 0, _, _, _, _ => .error .endless
  | fuel + 1, w, data, dataOffset, len =>
    if len > 0 then do
      let w ← w.makeRoom
      let needCpy := min len (kBufferSize - w.bufferOffset)
      let w ← w.copyIn data dataOffset needCpy
      if len - needCpy = 0 then pure w
      else appendLoop fuel w data (dataOffset + needCpy) (len - needCpy)
    else pure w

/-- The part of `append` that copies `len` bytes of the data. -/
def takeIn (w : WriterBuffer) (data : Bytes) (len : ℤ) : Exec WriterBuffer :=
  let remainBufSize := kBufferSize - w.bufferOffset
  if len < remainBufSize then w.copyIn data 0 len
  else do
    let w ← w.copyIn data 0 remainBufSize
    let w ← w.bufPersist kBufferSize
    let len := len - remainBufSize
    appendLoop (len.toNat + 1) w data remainBufSize len

def append (w : WriterBuffer) (data : Bytes) (len : ℤ) (flush : Bool) : Exec WriterBuffer :=
  if len = 0 then pure w
  else do
    let w ← w.takeIn data len
    if flush then w.bufPersist w.bufferOffset else pure w

def flush (w : WriterBuffer) : Exec WriterBuffer :=
  if w.bufferOffset > 0 then w.bufPersist w.bufferOffset else pure w

def sync (w : WriterBuffer) : Exec WriterBuffer := w.flush

/-! ## Refinement -/

/-- `data[pos, pos + len)`. -/
def window (data : Bytes) (pos len : ℤ) : Bytes := (data.drop pos.toNat).take len.toNat

theorem length_window {data : Bytes} {pos len : ℤ} (hpos : 0 ≤ pos) (hlen : 0 ≤ len)
    (hin : pos + len ≤ data.length) : ((window data pos len).length : ℤ) = len := by
  unfold window
  rw [List.length_take, List.length_drop]
  omega

theorem window_take {data : Bytes} {pos len n : ℤ} (hn : n ≤ len) :
    (window data pos len).take n.toNat = window data pos n := by
  unfold window
  rw [List.take_take, min_eq_left (by omega)]

theorem window_drop {data : Bytes} {pos len n : ℤ} (hpos : 0 ≤ pos) (hn : 0 ≤ n) (hle : n ≤ len) :
    (window data pos len).drop n.toNat = window data (pos + n) (len - n) := by
  have hstart : (pos + n).toNat = pos.toNat + n.toNat := by omega
  have hrest : (len - n).toNat = len.toNat - n.toNat := by omega
  unfold window
  rw [List.drop_take, List.drop_drop, hstart, hrest]

theorem slice_window {data : Bytes} {pos len : ℤ} (hpos : 0 ≤ pos) (hlen : 0 ≤ len)
    (hin : pos + len ≤ data.length) : slice data pos len = .ok (window data pos len) := by
  rw [slice, require_of ⟨hpos, hlen, hin⟩]
  rfl

/-- The filled part of the buffer, which is what `FileWriter` keeps of it. -/
def filled (w : WriterBuffer) : FileWriter where
  file := w.file
  buffer := w.buffer.take w.bufferOffset.toNat
  fits := by
    rw [← w.sized]
    exact List.length_take_le' _ _

@[simp] theorem filled_openFile (content : Bytes) :
    (openFile content).filled = FileWriter.openFile content := by
  simp [filled, openFile, FileWriter.openFile]

theorem length_filled (w : WriterBuffer) : (w.filled.buffer.length : ℤ) = w.bufferOffset := by
  have h0 := w.offset_nonneg
  have hle := w.offset_le
  have hsized := w.sized
  show ((w.buffer.take w.bufferOffset.toNat).length : ℤ) = w.bufferOffset
  rw [List.length_take]
  omega

theorem isBufferFull_filled (w : WriterBuffer) : w.filled.isBufferFull = w.isBufferFull := by
  have hlen := w.length_filled
  unfold FileWriter.isBufferFull isBufferFull
  rw [← hlen]
  simp

/-- A copy that stays inside both arrays appends to the filled part. -/
theorem copyIn_refines (w : WriterBuffer) {data : Bytes} {dataOffset n : ℤ}
    (hfrom : 0 ≤ dataOffset) (hn : 0 ≤ n) (hdata : dataOffset + n ≤ data.length)
    (hroom : w.bufferOffset + n ≤ kBufferSize) :
    ∃ w', w.copyIn data dataOffset n = .ok w' ∧ w'.bufferOffset = w.bufferOffset + n ∧
      w.filled.copyIn (window data dataOffset n) = .ok w'.filled := by
  have h0 := w.offset_nonneg
  have hle := w.offset_le
  have hfilled := w.length_filled
  have hlen := length_window hfrom hn hdata
  have hslice := slice_window hfrom hn hdata
  generalize window data dataOffset n = bytes at *
  have hroom' : w.bufferOffset + bytes.length ≤ kBufferSize := by omega
  have hfits : (w.filled.buffer ++ bytes).length ≤ kBufferSize := by
    rw [List.length_append]
    omega
  have hoffset : (w.bufferOffset + bytes.length).toNat = w.bufferOffset.toNat + bytes.length := by
    omega
  have hpos : w.bufferOffset.toNat ≤ w.buffer.length := by
    rw [w.sized]
    omega
  refine ⟨_, by rw [copyIn, hslice, ok_bind, dif_pos hroom'], congrArg (w.bufferOffset + ·) hlen, ?_⟩
  rw [FileWriter.copyIn, dif_pos hfits]
  simp only [filled, hoffset, take_overwrite bytes hpos]

/-- Persisting the filled part leaves it empty. -/
theorem bufPersist_refines (w : WriterBuffer) :
    ∃ w', w.bufPersist w.bufferOffset = .ok w' ∧ w'.filled = w.filled.bufPersist := by
  have h0 := w.offset_nonneg
  have hin : 0 + w.bufferOffset ≤ w.buffer.length := by
    rw [w.sized]
    have hle := w.offset_le
    omega
  have hslice := slice_window (le_refl 0) h0 hin
  refine ⟨_, by rw [bufPersist, hslice, ok_bind, pure_eq_ok], ?_⟩
  simp [filled, window, FileWriter.bufPersist, FileWriter.stream]

/-- A full buffer is persisted whole, which is its filled part. -/
theorem bufPersist_full {w : WriterBuffer} (h : w.bufferOffset = kBufferSize) :
    ∃ w', w.bufPersist kBufferSize = .ok w' ∧ w'.filled = w.filled.bufPersist := by
  rw [← h]
  exact w.bufPersist_refines

theorem makeRoom_refines (w : WriterBuffer) :
    ∃ w', w.makeRoom = .ok w' ∧
      w'.filled = (if w.filled.isBufferFull then w.filled.bufPersist else w.filled) ∧
      w'.bufferOffset < kBufferSize := by
  rw [isBufferFull_filled]
  unfold makeRoom
  by_cases hfull : w.isBufferFull = true
  · rw [if_pos hfull, if_pos hfull]
    rcases bufPersist_full (of_decide_eq_true hfull) with ⟨w', hpersist, hfilled⟩
    refine ⟨w', hpersist, hfilled, ?_⟩
    have hempty := w'.length_filled
    rw [hfilled, FileWriter.buffer_bufPersist] at hempty
    rw [← hempty]
    norm_num [kBufferSize]
  · rw [if_neg hfull, if_neg hfull]
    refine ⟨w, rfl, rfl, ?_⟩
    have hle := w.offset_le
    simp only [isBufferFull, decide_eq_true_eq] at hfull
    omega

theorem appendLoop_done {fuel : ℕ} (w : WriterBuffer) (data : Bytes) (dataOffset : ℤ)
    (hfuel : 0 < fuel) : appendLoop fuel w data dataOffset 0 = .ok w := by
  cases fuel with
  | zero => omega
  | succ fuel => simp [appendLoop]

/-- The loop copies `data[dataOffset, dataOffset + len)`. -/
theorem appendLoop_refines {fuel : ℕ} (w : WriterBuffer) {data : Bytes} {dataOffset len : ℤ}
    (hfrom : 0 ≤ dataOffset) (hlen : 0 ≤ len) (hdata : dataOffset + len ≤ data.length)
    (hfuel : len.toNat < fuel) :
    ∃ w', appendLoop fuel w data dataOffset len = .ok w' ∧
      FileWriter.appendLoop fuel w.filled (window data dataOffset len) = .ok w'.filled := by
  induction fuel generalizing w dataOffset len with
  | zero => omega
  | succ fuel ih =>
      by_cases hzero : len = 0
      · subst hzero
        refine ⟨w, appendLoop_done w data dataOffset (by omega), ?_⟩
        simp [FileWriter.appendLoop, window]
      have hpos : 0 < len := by omega
      have hfuel₀ : 0 < fuel := by omega
      rcases w.makeRoom_refines with ⟨w₁, hmake, hfilled₁, hroom⟩
      have hoffset₁ := w₁.length_filled
      have hlength := length_window hfrom hlen hdata
      have hne : window data dataOffset len ≠ [] := by
        rw [← List.length_pos_iff]
        omega
      -- this round copies at least one byte, and the next one goes on behind it
      obtain ⟨needCpy, hneed⟩ : ∃ n, min len (kBufferSize - w₁.bufferOffset) = n := ⟨_, rfl⟩
      have hneed' : min (window data dataOffset len).length
          (kBufferSize - w₁.filled.buffer.length) = needCpy.toNat := by omega
      have hn0 : 0 ≤ needCpy := by omega
      have hn : needCpy ≤ len := by omega
      have hin : dataOffset + needCpy ≤ (data.length : ℤ) := by omega
      have hnext : dataOffset + needCpy + (len - needCpy) ≤ (data.length : ℤ) := by omega
      rcases w₁.copyIn_refines hfrom hn0 hin (by omega) with ⟨w₂, hcopy, -, hcopy'⟩
      rcases ih w₂ (by omega) (by omega) hnext (by omega) with ⟨w₃, hloop, hloop'⟩
      refine ⟨w₃, ?_, ?_⟩
      · rw [appendLoop, if_pos hpos, hmake, ok_bind]
        simp only [hneed, hcopy, ok_bind]
        by_cases hlast : len - needCpy = 0
        · -- the `break` leaves where the loop condition would
          rw [hlast, appendLoop_done w₂ data _ hfuel₀] at hloop
          rw [if_pos hlast, pure_eq_ok, hloop]
        · rw [if_neg hlast, hloop]
      · rw [FileWriter.appendLoop, if_neg hne]
        simp only [← hfilled₁, hneed', window_take hn, window_drop hfrom hn0 hn, hcopy', ok_bind,
          hloop']

theorem takeIn_refines (w : WriterBuffer) {data : Bytes} {len : ℤ} (hlen : 0 ≤ len)
    (hdata : 0 + len ≤ data.length) :
    ∃ w', w.takeIn data len = .ok w' ∧ w.filled.takeIn (window data 0 len) = .ok w'.filled := by
  have hoffset := w.length_filled
  have h0 := w.offset_nonneg
  have hle := w.offset_le
  have hlength := length_window (le_refl 0) hlen hdata
  obtain ⟨remainBufSize, hremain⟩ : ∃ n, kBufferSize - w.bufferOffset = n := ⟨_, rfl⟩
  have hremain' : kBufferSize - w.filled.buffer.length = remainBufSize.toNat := by omega
  unfold takeIn FileWriter.takeIn
  simp only [hremain, hremain']
  by_cases hfit : len < remainBufSize
  · have hfit' : (window data 0 len).length < remainBufSize.toNat := by omega
    rw [if_pos hfit, if_pos hfit']
    rcases w.copyIn_refines (le_refl 0) hlen hdata (by omega) with ⟨w₁, hcopy, -, hcopy'⟩
    exact ⟨w₁, hcopy, hcopy'⟩
  · have hfit' : ¬(window data 0 len).length < remainBufSize.toNat := by omega
    have hn0 : 0 ≤ remainBufSize := by omega
    have hn : remainBufSize ≤ len := by omega
    have hin : 0 + remainBufSize ≤ (data.length : ℤ) := by omega
    have hrest : 0 + remainBufSize + (len - remainBufSize) ≤ (data.length : ℤ) := by omega
    rw [if_neg hfit, if_neg hfit', window_take hn, window_drop (le_refl 0) hn0 hn]
    -- the buffer is filled up and persisted, and the loop copies the rest
    rcases w.copyIn_refines (le_refl 0) hn0 hin (by omega) with ⟨w₁, hcopy, hoffset₁, hcopy'⟩
    rcases bufPersist_full (show w₁.bufferOffset = kBufferSize by omega) with
      ⟨w₂, hpersist, hfilled₂⟩
    have hlength' := length_window (by omega) (by omega) hrest
    have hfuel : (window data (0 + remainBufSize) (len - remainBufSize)).length =
        (len - remainBufSize).toNat := by omega
    rcases w₂.appendLoop_refines (by omega) (by omega) hrest (Nat.lt_succ_self _) with
      ⟨w₃, hloop, hloop'⟩
    rw [zero_add] at hloop
    exact ⟨w₃, by simp only [hcopy, ok_bind, hpersist, hloop],
      by simp only [hcopy', ok_bind, ← hfilled₂, hfuel, hloop']⟩

/-- A call of `append` that names no more bytes than there are does to the
filled part what `FileWriter.append` does. -/
theorem append_refines (w : WriterBuffer) {data : Bytes} {len : ℤ} (flush : Bool) (hlen : 0 ≤ len)
    (hdata : len ≤ data.length) :
    ∃ w', w.append data len flush = .ok w' ∧ w.filled.append data len flush = .ok w'.filled := by
  unfold append FileWriter.append
  by_cases hzero : len = 0
  · rw [if_pos hzero, if_pos hzero]
    exact ⟨w, rfl, rfl⟩
  rw [if_neg hzero, if_neg hzero, require_of ⟨hlen, hdata⟩, ok_bind]
  have hdata' : 0 + len ≤ (data.length : ℤ) := by omega
  rcases w.takeIn_refines hlen hdata' with ⟨w₁, htake, htake'⟩
  have hwindow : window data 0 len = data.take len.toNat := rfl
  rw [htake, ← hwindow, htake', ok_bind, ok_bind]
  cases flush with
  | false => exact ⟨w₁, rfl, rfl⟩
  | true =>
      rcases w₁.bufPersist_refines with ⟨w₂, hpersist, hfilled₂⟩
      exact ⟨w₂, hpersist, by rw [hfilled₂]; rfl⟩

theorem flush_refines (w : WriterBuffer) :
    ∃ w', w.flush = .ok w' ∧ w'.filled = w.filled.flush := by
  have hoffset := w.length_filled
  unfold flush FileWriter.flush
  by_cases hpos : w.bufferOffset > 0
  · have hpos' : w.filled.buffer.length > 0 := by omega
    rw [if_pos hpos, if_pos hpos']
    exact w.bufPersist_refines
  · have hpos' : ¬w.filled.buffer.length > 0 := by omega
    rw [if_neg hpos, if_neg hpos']
    exact ⟨w, rfl, rfl⟩

/-! ## Runs -/

/-- The calls that a user of the writer makes. -/
inductive Call where
  | append (data : Bytes) (len : ℤ) (flush : Bool)
  | flush
  | sync

/-- `len` is an `int32_t` that is not negative, and the data has as many bytes. -/
def Call.Proper : Call → Prop
  | .append data len _ => 0 ≤ len ∧ len < 2 ^ 31 ∧ len ≤ data.length
  | .flush => True
  | .sync => True

/-- The bytes that a call appends. -/
def Call.bytes : Call → Bytes
  | .append data len _ => data.take len.toNat
  | .flush => []
  | .sync => []

def step (w : WriterBuffer) : Call → Exec WriterBuffer
  | .append data len flush => w.append data len flush
  | .flush => w.flush
  | .sync => w.sync

/-- One call: no check fails, and file and filled part grow by its bytes. -/
theorem step_stream (w : WriterBuffer) {call : Call} (hcall : call.Proper) :
    ∃ w', w.step call = .ok w' ∧ w'.filled.stream = w.filled.stream ++ call.bytes := by
  cases call with
  | append data len flush =>
      rcases w.append_refines flush hcall.1 hcall.2.2 with ⟨w', happend, happend'⟩
      exact ⟨w', happend, FileWriter.append_ok happend'⟩
  | flush =>
      rcases w.flush_refines with ⟨w', hflush, hfilled⟩
      refine ⟨w', hflush, ?_⟩
      rw [hfilled, ← FileWriter.sync, FileWriter.stream_sync, Call.bytes, List.append_nil]
  | sync =>
      rcases w.flush_refines with ⟨w', hflush, hfilled⟩
      refine ⟨w', hflush, ?_⟩
      rw [hfilled, ← FileWriter.sync, FileWriter.stream_sync, Call.bytes, List.append_nil]

/-- Whatever calls a user makes, none of their copies leaves the buffer or the
data, and after each the file and `buffer[0, buffer_offset)` together are what
was there at first with the data of the calls behind it. -/
theorem calls_stream (content : Bytes) (calls : List Call) (hcalls : ∀ c ∈ calls, c.Proper) :
    ∃ w, run step (openFile content) calls = .ok w ∧
      w.file ++ w.buffer.take w.bufferOffset.toNat =
        content ++ (calls.map Call.bytes).flatten ∧
      0 ≤ w.bufferOffset ∧ w.bufferOffset ≤ 65536 := by
  have hrun : ∃ w, run step (openFile content) calls = .ok w ∧
      w.filled.stream = content ++ (calls.map Call.bytes).flatten := by
    induction calls using List.reverseRecOn with
    | nil => exact ⟨_, rfl, by simp⟩
    | append_singleton calls c ih =>
        rcases ih fun c' hc' => hcalls c' (List.mem_append_left _ hc') with ⟨w, hw, hstream⟩
        rcases w.step_stream (hcalls c (by simp)) with ⟨w', hstep, hstream'⟩
        refine ⟨w', run_concat_ok.2 ⟨w, hw, hstep⟩, ?_⟩
        rw [hstream', hstream]
        simp
  rcases hrun with ⟨w, hw, hstream⟩
  exact ⟨w, hw, hstream, w.offset_nonneg, w.offset_le⟩

theorem calls_stream_hello :
    ∃ w, run step (openFile [7]) [.append [104, 105, 0] 2 true, .sync, .append [33] 1 false] =
        .ok w ∧
      w.file ++ w.buffer.take w.bufferOffset.toNat = [7] ++ [104, 105, 33] ∧
      0 ≤ w.bufferOffset ∧ w.bufferOffset ≤ 65536 :=
  calls_stream [7] [.append [104, 105, 0] 2 true, .sync, .append [33] 1 false] (by
    intro c hc
    simp only [List.mem_cons, List.not_mem_nil, or_false] at hc
    rcases hc with rfl | rfl | rfl
    · exact ⟨by norm_num, by norm_num, by norm_num⟩
    · trivial
    · exact ⟨by norm_num, by norm_num, by norm_num⟩)

end WriterBuffer

end Smallkv
