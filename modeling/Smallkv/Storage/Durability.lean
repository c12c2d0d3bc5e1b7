import Smallkv.Storage.WriterBuffer

/-!
# Storage.Durability — what is in the file once it was flushed

Behind `flush`, `sync`, `close` and an `append` that flushes, the file is to hold
all that was appended. `append` returns at once where the length is zero, so
then it leaves in the buffer what is there. The descriptor is -1 once the file
was closed: a `write` to it fails, and `buf_persist` asserts that it does not.
-/

namespace Smallkv

open Fallible

/-! ## What stays in the buffer -/

namespace FileWriter

variable {w w' : FileWriter} {data : Bytes}

theorem copyIn_file {bytes : Bytes} (h : w.copyIn bytes = .ok w') : w'.file = w.file := by
  unfold copyIn at h
  split at h
  · cases h
    rfl
  · cases h

/-- The loop only adds to the file. -/
theorem appendLoop_file {fuel : ℕ} (h : appendLoop fuel w data = .ok w') :
    w.file.length ≤ w'.file.length := by
  induction fuel generalizing w data with
  | zero => cases h
  | succ fuel ih =>
      rw [appendLoop] at h
      split at h
      · cases h
        exact le_refl _
      · rcases bind_eq_ok.1 h with ⟨w₁, hcopy, h⟩
        have hrest := ih h
        rw [copyIn_file hcopy] at hrest
        split at hrest
        · have hlen : w.bufPersist.file.length = w.file.length + w.buffer.length :=
            List.length_append
          omega
        · exact hrest

/-- Data that fits stays in the buffer; else at least one buffer is written. -/
theorem takeIn_file (h : w.takeIn data = .ok w') :
    w'.file = w.file ∧ data.length < kBufferSize - w.buffer.length ∨
      w.file.length < w'.file.length ∧ kBufferSize - w.buffer.length ≤ data.length := by
  unfold takeIn at h
  simp only at h
  split at h
  · rename_i hfit
    exact Or.inl ⟨copyIn_file h, hfit⟩
  · rename_i hfit
    right
    rcases w.copyIn_ok (List.length_take_le (kBufferSize - w.buffer.length) data) with
      ⟨w₁, hcopy, hstream⟩
    rw [hcopy, ok_bind] at h
    have hloop := appendLoop_file h
    have hlen := congrArg List.length hstream
    have hfits := w.fits
    simp only [stream, List.length_append, List.length_take] at hlen
    have hpersist : w₁.bufPersist.file.length = w₁.file.length + w₁.buffer.length :=
      List.length_append
    have hsize : kBufferSize = 65536 := rfl
    constructor
    · omega
    · omega

/-- What a call of `append` does to the file. -/
theorem append_file {len : ℤ} {flush : Bool} (h0 : 0 ≤ len) (hlen : len ≤ data.length)
    (h : w.append data len flush = .ok w') :
    (w' = w ∧ len = 0) ∨
      (0 < len ∧ flush = true ∧ w'.buffer = [] ∧ w.file.length < w'.file.length) ∨
      (0 < len ∧ flush = false ∧ w'.file = w.file ∧ len < kBufferSize - w.buffer.length) ∨
      0 < len ∧ flush = false ∧ w.file.length < w'.file.length ∧
        kBufferSize - w.buffer.length ≤ len := by
  have hstream := append_ok h
  unfold append at h
  split at h
  · rename_i hzero
    cases h
    exact Or.inl ⟨rfl, hzero⟩
  · rename_i hzero
    have hpos : 0 < len := by omega
    rcases bind_eq_ok.1 h with ⟨_, -, h⟩
    rcases bind_eq_ok.1 h with ⟨w₁, htake, h⟩
    have hdata : ((data.take len.toNat).length : ℤ) = len := by
      rw [List.length_take]
      omega
    have hfits := w.fits
    cases h
    cases flush with
    | true =>
        refine Or.inr (Or.inl ⟨hpos, rfl, rfl, ?_⟩)
        rw [if_pos rfl, stream_bufPersist] at hstream
        have hgrow : w₁.bufPersist.file.length = (w.stream ++ data.take len.toNat).length :=
          congrArg List.length hstream
        rw [stream, List.length_append, List.length_append] at hgrow
        show w.file.length < w₁.bufPersist.file.length
        omega
    | false =>
        rcases takeIn_file htake with ⟨hfile, hfit⟩ | ⟨hfile, hover⟩
        · refine Or.inr (Or.inr (Or.inl ⟨hpos, rfl, hfile, ?_⟩))
          omega
        · refine Or.inr (Or.inr (Or.inr ⟨hpos, rfl, hfile, ?_⟩))
          omega

/-- Flushing writes what is in the buffer, if there is something. -/
theorem flush_file (w : FileWriter) : 0 < w.buffer.length ↔ w.flush.file ≠ w.file := by
  unfold flush
  split
  · rename_i hpos
    refine iff_of_true hpos ?_
    intro hfile
    have hlen := congrArg List.length hfile
    simp only [bufPersist, stream, List.length_append] at hlen
    omega
  · rename_i hpos
    exact iff_of_false hpos fun h => h rfl

end FileWriter

/-! ## The descriptor -/

/-- A writer and its descriptor. -/
structure OpenWriter where
  writer : WriterBuffer
  fd : ℤ

namespace OpenWriter

def openFile (content : Bytes) (fd : ℤ) : OpenWriter := ⟨.openFile content, fd⟩

/-- The writer behind a call. Where bytes were handed to `write` the descriptor
has to be one. -/
def written (s : OpenWriter) (w : WriterBuffer) : Exec OpenWriter := do
  require .assertion (s.fd ≠ -1 ∨ w.file = s.writer.file)
  pure { s with writer := w }

/-- The calls, with `close` among them. -/
inductive Call where
  | buffered (call : WriterBuffer.Call)
  | close

def step (s : OpenWriter) : Call → Exec OpenWriter
  | .buffered call => do
    let w ← s.writer.step call
    s.written w
  | .close => do
    -- `flush` comes first, as the descriptor is still open
    let w ← s.writer.flush
    let s ← s.written w
    pure { s with fd := -1 }

def Call.Proper : Call → Prop
  | .buffered call => call.Proper
  | .close => True

def Call.bytes : Call → Bytes
  | .buffered call => call.bytes
  | .close => []

/-- The call is to leave nothing in the buffer. -/
def Call.Flushes : Call → Prop
  | .buffered (.append _ _ flush) => flush = true
  | .buffered .flush => True
  | .buffered .sync => True
  | .close => True

/-- The data that the calls append. -/
def allBytes (calls : List Call) : Bytes := (calls.map Call.bytes).flatten

@[simp] theorem allBytes_nil : allBytes [] = [] := rfl

@[simp] theorem allBytes_concat (calls : List Call) (call : Call) :
    allBytes (calls ++ [call]) = allBytes calls ++ call.bytes := by
  simp [allBytes]

/-- If the last call flushes, the buffer is empty and the file has all there is. -/
def Durable (content : Bytes) (calls : List Call) (s : OpenWriter) : Prop :=
  (∃ call, calls.getLast? = some call ∧ call.Flushes) →
    s.writer.bufferOffset = 0 ∧ s.writer.file = content ++ allBytes calls

/-- The call hands bytes to `write`: the buffer gets full, or has something in it
when it is flushed. -/
def Writes (s : OpenWriter) : Call → Prop
  | .buffered (.append _ len flush) =>
    0 < len ∧ (flush = true ∨ kBufferSize - s.writer.bufferOffset ≤ len)
  | .buffered .flush => 0 < s.writer.bufferOffset
  | .buffered .sync => 0 < s.writer.bufferOffset
  | .close => 0 < s.writer.bufferOffset

/-- The call is an `append` of nothing that is to flush what is in the buffer. -/
def Forgets (s : OpenWriter) : Call → Prop
  | .buffered (.append _ len flush) => len = 0 ∧ flush = true ∧ 0 < s.writer.bufferOffset
  | .buffered .flush => False
  | .buffered .sync => False
  | .close => False

variable {s s' : OpenWriter} {call : Call} {content : Bytes} {calls : List Call}

/-- What a call does to the writer is what its part without the descriptor does. -/
def Call.inner : Call → WriterBuffer.Call
  | .buffered call => call
  | .close => .flush

/-- The descriptor behind a call. -/
def Call.fdAfter (fd : ℤ) : Call → ℤ
  | .buffered _ => fd
  | .close => -1

theorem step_ok_iff : s.step call = .ok s' ↔ ∃ w, s.writer.step call.inner = .ok w ∧
    (s.fd ≠ -1 ∨ w.file = s.writer.file) ∧ s' = ⟨w, call.fdAfter s.fd⟩ := by
  have hwritten : ∀ (w : WriterBuffer) (t : OpenWriter), s.written w = .ok t ↔
      (s.fd ≠ -1 ∨ w.file = s.writer.file) ∧ t = ⟨w, s.fd⟩ := by
    intro w t
    unfold written
    rw [bind_eq_ok]
    constructor
    · rintro ⟨_, hfd, ht⟩
      cases ht
      exact ⟨require_eq_ok.1 hfd, rfl⟩
    · rintro ⟨hfd, rfl⟩
      exact ⟨(), require_of hfd, rfl⟩
  cases call with
  | buffered c =>
      simp only [step, bind_eq_ok, hwritten]
      rfl
  | close =>
      simp only [step, bind_eq_ok, hwritten, pure_eq_ok, Except.ok.injEq]
      constructor
      · rintro ⟨w, hw, t, ⟨hfd, rfl⟩, rfl⟩
        exact ⟨w, hw, hfd, rfl⟩
      · rintro ⟨w, hw, hfd, rfl⟩
        exact ⟨w, hw, _, ⟨hfd, rfl⟩, rfl⟩

/-- What a call does to file and buffer. -/
structure Behind (s : OpenWriter) (call : Call) (w : WriterBuffer) : Prop where
  stream : w.filled.stream = s.writer.filled.stream ++ call.bytes
  writes : s.Writes call ↔ w.file ≠ s.writer.file
  flushed : call.Flushes → (w.bufferOffset = 0 ↔ ¬ s.Forgets call)

theorem flush_behind (s : OpenWriter) : ∃ w, s.writer.flush = .ok w ∧
    w.filled.stream = s.writer.filled.stream ∧
    (0 < s.writer.bufferOffset ↔ w.file ≠ s.writer.file) ∧ w.bufferOffset = 0 := by
  rcases s.writer.flush_refines with ⟨w, hflush, hfilled⟩
  have hbefore := s.writer.length_filled
  have hafter := w.length_filled
  refine ⟨w, hflush, ?_, ?_, ?_⟩
  · rw [hfilled, ← FileWriter.sync, FileWriter.stream_sync]
  · have hfile := s.writer.filled.flush_file
    rw [← hfilled] at hfile
    rw [← hbefore, Int.natCast_pos]
    exact hfile
  · rw [hfilled, ← FileWriter.sync, FileWriter.buffer_sync] at hafter
    exact hafter.symm

/-- Every proper call goes through up to the descriptor. -/
theorem inner_behind (s : OpenWriter) (hcall : call.Proper) :
    ∃ w, s.writer.step call.inner = .ok w ∧ Behind s call w := by
  have hflush : ∀ c : Call, c.inner = .flush ∨ c.inner = .sync → c.bytes = [] →
      (s.Writes c ↔ 0 < s.writer.bufferOffset) → ¬ s.Forgets c →
        ∃ w, s.writer.step c.inner = .ok w ∧ Behind s c w := by
    intro c hinner hbytes hwrites hforgets
    rcases s.flush_behind with ⟨w, hrun, hstream, hfile, hoffset⟩
    refine ⟨w, ?_, ?_⟩
    · rcases hinner with hc | hc
      · rw [hc]
        exact hrun
      · rw [hc]
        exact hrun
    · constructor
      · rw [hstream, hbytes, List.append_nil]
      · rw [hwrites, hfile]
      · intro _
        exact iff_of_true hoffset hforgets
  cases call with
  | close => exact hflush .close (Or.inl rfl) rfl Iff.rfl id
  | buffered c =>
      cases c with
      | flush => exact hflush (.buffered .flush) (Or.inl rfl) rfl Iff.rfl id
      | sync => exact hflush (.buffered .sync) (Or.inr rfl) rfl Iff.rfl id
      | append data len flush =>
          rcases s.writer.append_refines flush hcall.1 hcall.2.2 with ⟨w, hrun, hfilled⟩
          have hbefore := s.writer.length_filled
          have hafter := w.length_filled
          refine ⟨w, hrun, FileWriter.append_ok hfilled, ?_, ?_⟩
          · show 0 < len ∧ (flush = true ∨ kBufferSize - s.writer.bufferOffset ≤ len) ↔
              w.filled.file ≠ s.writer.filled.file
            rcases FileWriter.append_file hcall.1 hcall.2.2 hfilled with
              ⟨hsame, hzero⟩ | ⟨hpos, hflush, -, hgrow⟩ | ⟨hpos, hflush, hsame, hfit⟩ |
              ⟨hpos, hflush, hgrow, hover⟩
            · -- nothing to append: the call does nothing
              rw [hsame]
              exact iff_of_false (by omega) fun h => h rfl
            · exact iff_of_true ⟨hpos, Or.inl hflush⟩ fun h => by simp [h] at hgrow
            · refine iff_of_false ?_ fun h => h hsame
              rintro ⟨-, htrue | hle⟩
              · rw [hflush] at htrue
                cases htrue
              · omega
            · exact iff_of_true ⟨hpos, Or.inr (by omega)⟩ fun h => by simp [h] at hgrow
          · -- only the calls that flush are left, and of these the one with nothing to append
            intro (hflush : flush = true)
            show w.bufferOffset = 0 ↔ ¬(len = 0 ∧ flush = true ∧ 0 < s.writer.bufferOffset)
            rcases FileWriter.append_file hcall.1 hcall.2.2 hfilled with
              ⟨hsame, hzero⟩ | ⟨hpos, -, hempty, -⟩ | ⟨-, hfalse, -, -⟩ | ⟨-, hfalse, -, -⟩
            · rw [hsame] at hafter
              simp only [hzero, hflush, true_and]
              omega
            · rw [hempty] at hafter
              exact iff_of_true hafter.symm (by omega)
            · rw [hflush] at hfalse
              cases hfalse
            · rw [hflush] at hfalse
              cases hfalse

/-- What is known behind the calls so far. -/
structure Inv (content : Bytes) (calls : List Call) (s : OpenWriter) : Prop where
  stream : s.writer.filled.stream = content ++ allBytes calls
  durable : Durable content calls s

theorem openFile_inv (content : Bytes) (fd : ℤ) : Inv content [] (openFile content fd) where
  stream := by
    show (WriterBuffer.openFile content).filled.stream = _
    simp
  durable := by
    rintro ⟨call, hcall, -⟩
    cases hcall

/-- A writer without anything in its buffer has it all in the file. -/
theorem file_of_empty {w : WriterBuffer} (h : w.bufferOffset = 0) : w.file = w.filled.stream := by
  have hlen := w.length_filled
  rw [h] at hlen
  have hempty : w.filled.buffer = [] := List.eq_nil_of_length_eq_zero (by omega)
  show w.filled.file = w.filled.file ++ w.filled.buffer
  rw [hempty, List.append_nil]

theorem durable_concat_iff {content : Bytes} {calls : List Call} {s : OpenWriter}
    (hstream : s.writer.filled.stream = content ++ allBytes (calls ++ [call])) :
    Durable content (calls ++ [call]) s ↔ (call.Flushes → s.writer.bufferOffset = 0) := by
  constructor
  · intro h hflushes
    exact (h ⟨call, List.getLast?_concat .., hflushes⟩).1
  · rintro h ⟨last, hlast, hflushes⟩
    rw [List.getLast?_concat, Option.some.injEq] at hlast
    subst hlast
    have hempty := h hflushes
    exact ⟨hempty, by rw [← hstream]; exact file_of_empty hempty⟩

theorem Inv.step (h : Inv content calls s) (hcall : call.Proper) (hforgets : ¬ s.Forgets call)
    (hfd : s.Writes call → s.fd ≠ -1) :
    ∃ s', s.step call = .ok s' ∧ Inv content (calls ++ [call]) s' := by
  rcases s.inner_behind hcall with ⟨w, hrun, hbehind⟩
  refine ⟨⟨w, call.fdAfter s.fd⟩, step_ok_iff.2 ⟨w, hrun, ?_, rfl⟩, ?_⟩
  · by_cases hwrites : s.Writes call
    · exact Or.inl (hfd hwrites)
    · exact Or.inr (not_not.1 (mt hbehind.writes.2 hwrites))
  · -- file and buffer together have all the data in any case
    have hstream : w.filled.stream = content ++ allBytes (calls ++ [call]) := by
      rw [hbehind.stream, h.stream, allBytes_concat, List.append_assoc]
    refine ⟨hstream, (durable_concat_iff hstream).2 ?_⟩
    intro hflushes
    exact (hbehind.flushed hflushes).2 hforgets

theorem Inv.step_durable (h : Inv content calls s) (hcall : call.Proper)
    (hrun : s.step call = .ok s') (hdurable : Durable content (calls ++ [call]) s') :
    ¬ s.Forgets call ∧ (s.Writes call → s.fd ≠ -1) := by
  rcases s.inner_behind hcall with ⟨w, hinner, hbehind⟩
  rcases step_ok_iff.1 hrun with ⟨w', hinner', hfd, rfl⟩
  obtain rfl : w = w' := Except.ok.inj (hinner.symm.trans hinner')
  constructor
  · intro hforgets
    have hflushes : call.Flushes := by
      cases call with
      | close => trivial
      | buffered c =>
          cases c with
          | append data len flush => exact hforgets.2.1
          | flush => trivial
          | sync => trivial
    have hstream : w.filled.stream = content ++ allBytes (calls ++ [call]) := by
      rw [hbehind.stream, h.stream, allBytes_concat, List.append_assoc]
    have hempty := (durable_concat_iff (s := ⟨w, call.fdAfter s.fd⟩) hstream).1 hdurable hflushes
    exact (hbehind.flushed hflushes).1 hempty hforgets
  · intro hwrites
    exact hfd.resolve_right (hbehind.writes.1 hwrites)

end OpenWriter

open OpenWriter

/-- For all calls on a file with any content: they go through, and behind each of
them that flushes the buffer is empty and the file has all the data so far, exactly
if no `append` of nothing is to flush a buffer with something in it, and no call
writes behind a `close`. -/
theorem durable_iff (content : Bytes) (fd : ℤ) (calls : List OpenWriter.Call)
    (hcalls : ∀ call ∈ calls, call.Proper) :
    ((∃ s, run step (openFile content fd) calls = .ok s) ∧
        Always step (Durable content) (openFile content fd) calls) ↔
      ∀ pre call s, pre ++ [call] <+: calls → run step (openFile content fd) pre = .ok s →
        ¬ s.Forgets call ∧ (s.Writes call → s.fd ≠ -1) := by
  have hproper : ∀ pre (call : OpenWriter.Call), pre ++ [call] <+: calls → call.Proper :=
    fun pre call hpre => hcalls call (hpre.subset (List.mem_append_right pre List.mem_cons_self))
  apply ok_always_iff (OpenWriter.Inv content)
  · exact openFile_inv content fd
  · intro pre s h
    exact h.durable
  · intro pre s call hpre h hguard
    exact h.step (hproper pre call hpre) hguard.1 hguard.2
  · intro pre s call s' hpre h hrun hdurable
    exact h.step_durable (hproper pre call hpre) hrun hdurable

theorem durable_iff_hello :
    ((∃ s, run step (openFile [7] 3) [.buffered (.append [104, 105] 2 false),
          .buffered (.append [33] 1 true), .close] = .ok s) ∧
        Always step (Durable [7]) (openFile [7] 3) [.buffered (.append [104, 105] 2 false),
          .buffered (.append [33] 1 true), .close]) ↔
      ∀ pre call s, pre ++ [call] <+: [.buffered (.append [104, 105] 2 false),
          .buffered (.append [33] 1 true), .close] →
        run step (openFile [7] 3) pre = .ok s →
          ¬ s.Forgets call ∧ (s.Writes call → s.fd ≠ -1) :=
  durable_iff [7] 3 [.buffered (.append [104, 105] 2 false), .buffered (.append [33] 1 true),
    .close] (by
    intro call hcall
    simp only [List.mem_cons, List.not_mem_nil, or_false] at hcall
    rcases hcall with rfl | rfl | rfl
    · exact ⟨by norm_num, by norm_num, by norm_num⟩
    · exact ⟨by norm_num, by norm_num, by norm_num⟩
    · trivial)

/-- Two bytes are in the buffer, and an `append` of nothing leaves them there. -/
theorem nothing_not_flushed :
    ∃ s, run step (openFile [] 3) [.buffered (.append [104, 105] 2 false),
        .buffered (.append [] 0 true)] = .ok s ∧
      ¬ Durable [] [.buffered (.append [104, 105] 2 false), .buffered (.append [] 0 true)] s := by
  refine ⟨_, rfl, ?_⟩
  intro h
  have hempty : (2 : ℤ) = 0 := (h ⟨_, rfl, rfl⟩).1
  omega

end Smallkv
