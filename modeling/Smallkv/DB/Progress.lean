import Smallkv.DB.FlushLog

/-!
# DB.Progress — writes that do not abort

A write of short strings succeeds in every state that short strings lead to:
the payload has a NUL to stop at, memtable and cache take any pair, and a
non-empty storage directory can be made when a table needs it. Only the format
has to build every table it is given.
-/

namespace Smallkv

open Fallible Assoc PrefixCode

/-- Below 16 MiB. -/
def Short (s : Bytes) : Prop := s.length < 2 ^ 24

instance (s : Bytes) : Decidable (Short s) := inferInstanceAs (Decidable (_ < _))

/-- Tables of short pairs are built. -/
def SstFormat.Total (sst : SstFormat) : Prop :=
  ∀ n entries, (∀ pair ∈ entries, Short pair.1 ∧ Short pair.2) →
    ∃ bytes, sst.build n entries = .ok bytes

theorem plainFormat_total : plainFormat.Total := by
  intro n entries hshort
  have hcheck : ∀ pair ∈ entries, pair.1.length < 2 ^ 32 ∧ pair.2.length < 2 ^ 32 := by
    intro pair hpair
    have h := hshort pair hpair
    unfold Short at h
    omega
  refine ⟨encodeAll (fun _ => pairBytes) (fun _ _ => ()) () entries, ?_⟩
  simp only [plainFormat, require_of hcheck, ok_bind, pure_eq_ok]

/-- A map of short strings. -/
def ShortMap (m : Bytes → Option Bytes) : Prop := ∀ k v, m k = some v → Short k ∧ Short v

theorem Short.cString {s : Bytes} (h : Short s) : Short (cString s) :=
  lt_of_le_of_lt (List.takeWhile_prefix _).length_le h

theorem ShortMap.update {m : Bytes → Option Bytes} (h : ShortMap m) {key value : Bytes}
    (hkey : Short key) (hvalue : Short value) :
    ShortMap (Function.update m key (some value)) := by
  intro k v hk
  rw [Function.update_apply] at hk
  split at hk
  · rename_i heq
    cases hk
    exact ⟨heq ▸ hkey, hvalue⟩
  · exact h k v hk

/-- The directory part of a path is what stands before its last separator. -/
theorem dirPath_child (dir : Bytes) {name : Bytes} (hslash : slash ∉ name) :
    dirPath (dir ++ slash :: name) = dir := by
  have hdrop : (name.reverse ++ slash :: dir.reverse).dropWhile (· ≠ slash) =
      slash :: dir.reverse := by
    rw [List.dropWhile_append_of_pos]
    · simp
    · intro b hb
      rw [List.mem_reverse] at hb
      have hne : b ≠ slash := fun heq => hslash (heq ▸ hb)
      simpa using hne
  rw [dirPath, if_pos (by simp), List.reverse_append, List.reverse_cons, List.append_assoc,
    List.singleton_append, hdrop]
  simp

namespace DBImpl

variable {host : Host} {sst : SstFormat} {db : DBImpl} {mem cached : Bytes → Option Bytes}

theorem memTableToSST_progress (hsst : sst.Total) (h : Tracks host db mem cached)
    (hdir : db.options.storageDir ≠ []) (hshort : ShortMap mem) :
    ∃ db', db.memTableToSST host sst = .ok db' := by
  rcases h.memTable.entries with ⟨entries, hentries, hsorted, hmap, -, -⟩
  have hopen : ∃ content,
      openForAppend db.files host.cwd (writePath db.options db.options.lisstNum) = .ok content := by
    unfold openForAppend
    split
    · exact ⟨_, rfl⟩
    · have hpath : dirPath (writePath db.options db.options.lisstNum) ≠ [] := by
        rwa [writePath, dirPath_child _ (buildSSTPath_part 0 _).1]
      exact ⟨[], by rw [require_of hpath, ok_bind, pure_eq_ok]⟩
  have hpairs : ∀ pair ∈ entries, Short pair.1 ∧ Short pair.2 := by
    intro pair hpair
    refine hshort pair.1 pair.2 ?_
    rw [← hmap]
    exact (toMap_eq_some_iff (nodup_keys_of_sorted hsorted)).2 hpair
  rcases hopen with ⟨content, hcontent⟩
  rcases hsst db.memTable.getSize entries hpairs with ⟨bytes, hbytes⟩
  exact ⟨_, by rw [memTableToSST, hcontent, ok_bind, hentries, ok_bind, hbytes, ok_bind,
    pure_eq_ok]⟩

theorem flushIfFull_progress (hsst : sst.Total) (h : Tracks host db mem cached)
    (hdir : db.options.storageDir ≠ []) (hshort : ShortMap mem) :
    ∃ db', db.flushIfFull host sst = .ok db' := by
  unfold flushIfFull
  split
  · rcases memTableToSST_progress hsst h hdir hshort with ⟨db', hflush⟩
    exact ⟨{ db' with memTable := MemTable.new }, by rw [hflush, ok_bind, pure_eq_ok]⟩
  · exact ⟨db, rfl⟩

/-- Progress: no write of short strings aborts. -/
theorem write_progress (hsst : sst.Total) (h : Tracks host db mem cached)
    (hopen : db.closed = false) (hdir : db.options.storageDir ≠ []) (hshort : ShortMap mem)
    {w : Write} (hkey : Short w.key) (hvalue : Short w.value) :
    ∃ db', db.write host sst w = .ok db' := by
  have hlen : w.value.length < 2 ^ 32 - 1 := by
    unfold Short at hvalue
    omega
  rcases walAppend_progress host.crc32c db.walWriter hkey hlen with ⟨walWriter, hlog⟩
  rcases steps_spec h hlog with ⟨db₁, cached₁, hsteps, -, h₁, -, hsame⟩
  have hdir₁ : db₁.options.storageDir ≠ [] := by rwa [hsame.options]
  have hshort₁ : ShortMap (Function.update mem (cString w.key) (some (cString w.value))) :=
    hshort.update hkey.cString hvalue.cString
  rcases flushIfFull_progress hsst h₁ hdir₁ hshort₁ with ⟨db', hflush⟩
  refine ⟨db', ?_⟩
  rw [write_eq_run host sst hopen, Write.stages]
  exact run_concat_ok.2 ⟨db₁, hsteps, hflush⟩

end DBImpl

end Smallkv
