import Smallkv.DB.Overlay

/-!
# DB.Sessions — many sessions on one directory

A session opens the database with the same options each time, calls it and
closes it; what it leaves on the disk is what the next one finds. The counter
of tables is not among it, so the second session that flushes appends to the
file that the first one began with.
-/

namespace Smallkv

open Fallible Assoc DBImpl

/-- A directory between sessions, and what each session flushed, newest first. -/
structure Store where
  disk : Disk
  history : List (List Flush)

namespace Store

variable (host : Host) (sst : SstFormat) (options : Options)

/-- One session: open, call, close. -/
def session (store : Store) (ops : List Op) : Exec Store := do
  let db ← run (DBImpl.step host sst) (openDB options store.disk) ops
  let (db, _) ← db.close host sst
  pure ⟨db.disk, db.flushes :: store.history⟩

/-- Every flush had a file of its own, which holds its bytes from byte 0 on and
nothing else. -/
structure WriteOnce (store : Store) : Prop where
  nodup : (store.history.flatten.map Flush.file).Nodup
  contents : ∀ f ∈ store.history.flatten, store.disk.files f.file = some f.bytes

/-- Only one session flushed, and at most `2 ^ 32` times. -/
structure OneFlusher (store : Store) : Prop where
  one : store.history.Pairwise fun fs gs => fs = [] ∨ gs = []
  few : ∀ fs ∈ store.history, fs.length ≤ 2 ^ 32

variable {host sst options}

/-- What a session flushes is numbered from the same start in every session. -/
theorem session_ok {store store' : Store} {ops : List Op}
    (hrun : store.session host sst options ops = .ok store') :
    ∃ fs, store'.history = fs :: store.history ∧ SessionFlushes host sst options fs ∧
      store'.disk.files = replay store.disk.files fs := by
  rcases bind_eq_ok.1 hrun with ⟨db, hops, hrun⟩
  rcases bind_eq_ok.1 hrun with ⟨⟨db', status⟩, hclose, hrun⟩
  cases hrun
  rcases run_flushLog hops with ⟨hlog, -, mem, cached, h⟩
  refine ⟨db'.flushes, rfl, ?_⟩
  rcases close_cases h hclose with ⟨rfl, -⟩ | ⟨-, db₁, f, hflush, rfl⟩
  · exact ⟨hlog.flushes, hlog.files⟩
  · have hlog₁ := hflush.flushLog hlog
    exact ⟨hlog₁.flushes, hlog₁.files⟩

/-- Every session numbers its flushes alike, and the files are what all flushes
together made of them. -/
theorem sessions_ok {disk : Disk} {sessions : List (List Op)} {store : Store}
    (hrun : run (session host sst options) ⟨disk, []⟩ sessions = .ok store) :
    (∀ fs ∈ store.history, SessionFlushes host sst options fs) ∧
      store.disk.files = replay disk.files store.history.flatten := by
  refine run_invariant (fun store => (∀ fs ∈ store.history, SessionFlushes host sst options fs) ∧
    store.disk.files = replay disk.files store.history.flatten) ?_ ?_ hrun
  · rintro store ops store' ⟨hflushes, hfiles⟩ hsession
    rcases session_ok hsession with ⟨fs, hhistory, hfs, hfiles'⟩
    rw [hhistory]
    constructor
    · intro gs hgs
      rcases List.mem_cons.1 hgs with rfl | hgs
      · exact hfs
      · exact hflushes gs hgs
    · rw [hfiles', hfiles, List.flatten_cons, replay_append]
  · exact ⟨by simp, rfl⟩

end Store

/-- A session that flushes begins with the number it was opened with. -/
theorem SessionFlushes.first_mem {host : Host} {sst : SstFormat} {options : Options}
    {fs : List Flush} (h : SessionFlushes host sst options fs) (hne : fs ≠ []) :
    tableFile host options options.lisstNum ∈ fs.map Flush.file := by
  have hfirst : options.lisstNum ∈ fs.map Flush.number := by
    rw [h.numbers, List.mem_map]
    have hpos := List.length_pos_of_ne_nil hne
    exact ⟨0, by simpa using hpos, by simp⟩
  rcases List.mem_map.1 hfirst with ⟨f, hf, hnumber⟩
  exact List.mem_map.2 ⟨f, hf, by rw [h.file f hf, hnumber]⟩

theorem SessionFlushes.disjoint_iff {host : Host} {sst : SstFormat} {options : Options}
    {fs gs : List Flush} (hfs : SessionFlushes host sst options fs)
    (hgs : SessionFlushes host sst options gs) :
    (fs.map Flush.file).Disjoint (gs.map Flush.file) ↔ fs = [] ∨ gs = [] := by
  constructor
  · intro hdisjoint
    by_contra hboth
    rw [not_or] at hboth
    exact hdisjoint (hfs.first_mem hboth.1) (hgs.first_mem hboth.2)
  · rintro (rfl | rfl)
    · simp
    · simp

namespace Store

variable {host : Host} {sst : SstFormat} {options : Options} {disk : Disk}
  {sessions : List (List Op)} {store : Store}

/-- Where the files were new, those with one flush each hold just its bytes. -/
theorem writeOnce_iff_nodup
    (hnew : ∀ number, disk.files (tableFile host options number) = none)
    (hrun : run (session host sst options) ⟨disk, []⟩ sessions = .ok store) :
    WriteOnce store ↔ (store.history.flatten.map Flush.file).Nodup := by
  rcases sessions_ok hrun with ⟨hflushes, hfiles⟩
  constructor
  · exact WriteOnce.nodup
  · intro hnodup
    refine ⟨hnodup, ?_⟩
    rw [hfiles]
    refine replay_of_nodup hnodup ?_
    intro f hf
    rcases List.mem_flatten.1 hf with ⟨fs, hfs, hf⟩
    rw [(hflushes fs hfs).file f hf]
    exact hnew f.number

/-- Two flushes share a file when two sessions flush, for they begin with the
same number, and when one session runs through all numbers. -/
theorem nodup_iff_oneFlusher
    (hrun : run (session host sst options) ⟨disk, []⟩ sessions = .ok store) :
    (store.history.flatten.map Flush.file).Nodup ↔ OneFlusher store := by
  rcases sessions_ok hrun with ⟨hflushes, -⟩
  rw [List.map_flatten, List.nodup_flatten, List.pairwise_map]
  constructor
  · rintro ⟨heach, hpair⟩
    constructor
    · exact hpair.imp_of_mem fun hfs hgs => ((hflushes _ hfs).disjoint_iff (hflushes _ hgs)).1
    · intro fs hfs
      exact (hflushes fs hfs).nodup_iff.1 (heach _ (List.mem_map_of_mem hfs))
  · rintro ⟨hone, hfew⟩
    constructor
    · intro files hmem
      rcases List.mem_map.1 hmem with ⟨fs, hfs, rfl⟩
      exact (hflushes fs hfs).nodup_iff.2 (hfew fs hfs)
    · exact hone.imp_of_mem fun hfs hgs => ((hflushes _ hfs).disjoint_iff (hflushes _ hgs)).2

end Store

open Store

/-- Tables are written once exactly when a single session flushes and does not
run through all numbers. -/
theorem writeOnce_iff (host : Host) (sst : SstFormat) (options : Options) (disk : Disk)
    (hnew : ∀ number, disk.files (tableFile host options number) = none)
    (sessions : List (List Op)) {store : Store}
    (hrun : run (session host sst options) ⟨disk, []⟩ sessions = .ok store) :
    WriteOnce store ↔ OneFlusher store :=
  (writeOnce_iff_nodup hnew hrun).trans (nodup_iff_oneFlusher hrun)

/-- A session that writes and one that does not. -/
theorem writeOnce_iff_two :
    ∃ store, run (session plainHost plainFormat (tinyOptions (ascii "db") (by decide)))
        ⟨Disk.empty, []⟩ [[.write (.put [] (ascii "a") (ascii "x"))], []] = .ok store ∧
      (WriteOnce store ↔ OneFlusher store) :=
  ⟨_, rfl, writeOnce_iff plainHost plainFormat (tinyOptions (ascii "db") (by decide)) Disk.empty
    (fun _ => rfl) [[.write (.put [] (ascii "a") (ascii "x"))], []] rfl⟩

/-- Two sessions that write one pair each share a file. -/
theorem second_session_appends :
    ∃ store, run (session plainHost plainFormat Options.default) ⟨Disk.empty, []⟩
        [[.write (.put [] (ascii "a") (ascii "x"))], [.write (.put [] (ascii "b") (ascii "y"))]] =
          .ok store ∧ ¬ WriteOnce store := by
  refine ⟨_, rfl, ?_⟩
  intro honce
  have hshared : (tableFile plainHost Options.default 0 ::
      [tableFile plainHost Options.default 0]).Nodup := honce.nodup
  simp at hshared

/-! ## Which sessions flush -/

namespace DBImpl

variable {host : Host} {sst : SstFormat} {options : Options}

/-- What the writes `ws` have left in a session: only written keys are in the
memtable, there are no more flushes than writes, and once there was a write
something is in the memtable or was flushed. -/
structure Traces (ws : List Write) (mem : Bytes → Option Bytes) (fs : List Flush) : Prop where
  keys : ∀ k, mem k ≠ none → k ∈ ws.map fun w => cString w.key
  few : fs.length ≤ ws.length
  left : ws ≠ [] ↔ fs ≠ [] ∨ ∃ k, mem k ≠ none

theorem Traces.memAfter {ops : List Op} {mem : Bytes → Option Bytes} {fs : List Flush}
    (h : Traces (writes ops) mem fs) (op : Op) :
    Traces (writes (ops ++ [op])) (DBImpl.memAfter mem op) fs := by
  cases op with
  | get key => rwa [writes_concat_get]
  | write w =>
      rw [writes_concat_write]
      constructor
      · intro k hk
        rw [DBImpl.memAfter, Function.update_apply] at hk
        rw [List.map_append, List.mem_append]
        split at hk
        · rename_i heq
          exact Or.inr (by simp [heq])
        · exact Or.inl (h.keys k hk)
      · have hfew := h.few
        simp only [List.length_append, List.length_singleton]
        omega
      · exact ⟨fun _ => Or.inr ⟨cString w.key, by simp [DBImpl.memAfter]⟩, fun _ => by simp⟩

theorem run_traces {disk : Disk} {ops : List Op} {db : DBImpl}
    (hrun : run (step host sst) (openDB options disk) ops = .ok db) :
    ∃ mem cached, Tracks host db mem cached ∧ Traces (writes ops) mem db.flushes := by
  refine run_history_invariant (fun ops db => ∃ mem cached, Tracks host db mem cached ∧
    Traces (writes ops) mem db.flushes) ?_ ?_ hrun
  · exact ⟨_, _, openDB_tracks host options disk, by simp, le_rfl, by simp [writes, openDB]⟩
  · rintro ops db op db' ⟨mem, cached, h, htraces⟩ hstep
    rcases step_cases h hstep with ⟨db₁, cached₁, h₁, hsame, hflush⟩
    have hfew := htraces.few
    rw [← hsame.flushes] at htraces hfew
    have htraces₁ := htraces.memAfter op
    rcases hflush with rfl | ⟨w, f, rfl, hf, hnew⟩
    · exact ⟨_, cached₁, h₁, htraces₁⟩
    · -- what was in the memtable is in a table now
      refine ⟨_, _, hf.tracks hnew h₁, by simp, ?_, ?_⟩
      · rw [hf.flushes, writes_concat_write]
        simpa using hfew
      · simp [hf.flushes, writes_concat_write]

/-- With less than `2 ^ 31` writes, `GetSize` at `Close` is the number of keys. -/
theorem Traces.getSize {ws : List Write} {mem cached : Bytes → Option Bytes} {fs : List Flush}
    {db : DBImpl} (h : Traces ws mem fs) (htracks : Tracks host db mem cached)
    (hfew : ws.length < 2 ^ 31) : 0 < db.memTable.getSize ↔ ∃ k, mem k ≠ none := by
  rcases htracks.memTable.entries with ⟨l, -, hsorted, hmap, hsize, -⟩
  have hnodup := nodup_keys_of_sorted hsorted
  -- there are no more keys than writes, so the count does not wrap around
  have hsubset : l.map Prod.fst ⊆ ws.map fun w => cString w.key := by
    intro k hk
    refine h.keys k ?_
    rw [← hmap, Ne, toMap_eq_none_iff]
    exact not_not.2 hk
  have hlen : l.length ≤ ws.length := by
    have hle := (hnodup.subperm hsubset).length_le
    simpa using hle
  rw [hsize, asInt32_of_lt (Int.natCast_nonneg _) (by omega)]
  constructor
  · intro hpos
    cases l with
    | nil => simp at hpos
    | cons p l =>
        refine ⟨p.1, ?_⟩
        rw [← hmap, Ne, toMap_eq_none_iff]
        simp
  · rintro ⟨k, hk⟩
    rw [← hmap, Ne, toMap_eq_none_iff, not_not] at hk
    have hpos := List.length_pos_of_mem hk
    simpa using hpos

end DBImpl

namespace Store

variable {host : Host} {sst : SstFormat} {options : Options}

/-- A session of less than `2 ^ 31` writes flushes exactly when it writes. -/
theorem session_flushes {store store' : Store} {ops : List Op}
    (hrun : store.session host sst options ops = .ok store')
    (hfew : (writes ops).length < 2 ^ 31) :
    ∃ fs, store'.history = fs :: store.history ∧ (fs ≠ [] ↔ writes ops ≠ []) ∧
      fs.length ≤ 2 ^ 32 := by
  rcases bind_eq_ok.1 hrun with ⟨db, hops, hrun⟩
  rcases bind_eq_ok.1 hrun with ⟨⟨db', status⟩, hclose, hrun⟩
  cases hrun
  rcases run_traces hops with ⟨mem, cached, h, htraces⟩
  rcases run_flushLog hops with ⟨-, hopen, -⟩
  have hsize := htraces.getSize h hfew
  have hcount := htraces.few
  refine ⟨db'.flushes, rfl, ?_⟩
  rcases close_cases h hclose with ⟨rfl, hidle⟩ | ⟨hpos, db₁, f, hflush, rfl⟩
  · have hempty : ¬ ∃ k, mem k ≠ none := by
      rw [← hsize]
      rcases hidle with hclosed | hle
      · rw [hopen] at hclosed
        cases hclosed
      · exact not_lt.2 hle
    exact ⟨by rw [htraces.left, or_iff_left hempty], by omega⟩
  · have hwrites := htraces.left.2 (Or.inr (hsize.1 hpos))
    constructor
    · simp [hflush.flushes, hwrites]
    · simp only [hflush.flushes, List.length_cons]
      omega

/-- The history is that of the sessions, the last one first. -/
theorem sessions_flush {disk : Disk} {sessions : List (List Op)}
    (hfew : ∀ ops ∈ sessions, (writes ops).length < 2 ^ 31) {store : Store}
    (hrun : run (session host sst options) ⟨disk, []⟩ sessions = .ok store) :
    (store.history.map fun fs => fs ≠ []) = (sessions.reverse.map fun ops => writes ops ≠ []) ∧
      ∀ fs ∈ store.history, fs.length ≤ 2 ^ 32 := by
  refine run_history_invariant (fun sessions store =>
    (∀ ops ∈ sessions, (writes ops).length < 2 ^ 31) →
      (store.history.map fun fs => fs ≠ []) = (sessions.reverse.map fun ops => writes ops ≠ []) ∧
        ∀ fs ∈ store.history, fs.length ≤ 2 ^ 32) ?_ ?_ hrun hfew
  · intro _
    exact ⟨rfl, by simp⟩
  · intro sessions store ops store' hinv hsession hfew'
    rcases hinv fun a ha => hfew' a (by simp [ha]) with ⟨hmap, hlen⟩
    rcases session_flushes hsession (hfew' ops (by simp)) with ⟨fs, hhistory, hflushes, hcount⟩
    rw [hhistory]
    constructor
    · rw [List.map_cons, hmap, List.reverse_append, List.reverse_singleton, List.singleton_append,
        List.map_cons, propext hflushes]
    · intro gs hgs
      rcases List.mem_cons.1 hgs with rfl | hgs
      · exact hcount
      · exact hlen gs hgs

/-- In terms of what the clients do: as long as no session makes `2 ^ 31`
writes, tables are written once exactly when a single session writes. -/
theorem writeOnce_iff_one_writer {disk : Disk}
    (hnew : ∀ number, disk.files (tableFile host options number) = none)
    {sessions : List (List Op)} (hfew : ∀ ops ∈ sessions, (writes ops).length < 2 ^ 31)
    {store : Store} (hrun : run (session host sst options) ⟨disk, []⟩ sessions = .ok store) :
    WriteOnce store ↔ sessions.Pairwise fun a b => writes a = [] ∨ writes b = [] := by
  rcases sessions_flush hfew hrun with ⟨hmap, hlen⟩
  have hpair : store.history.Pairwise (fun fs gs => fs = [] ∨ gs = []) ↔
      sessions.Pairwise fun a b => writes a = [] ∨ writes b = [] := by
    calc store.history.Pairwise (fun fs gs => fs = [] ∨ gs = [])
        ↔ (store.history.map fun fs => fs ≠ []).Pairwise fun p q => ¬ p ∨ ¬ q := by
          simp only [List.pairwise_map, not_not, ne_eq]
      _ ↔ sessions.reverse.Pairwise fun a b => writes a = [] ∨ writes b = [] := by
          simp only [hmap, List.pairwise_map, not_not, ne_eq]
      _ ↔ _ := by simp only [List.pairwise_reverse, or_comm]
  rw [writeOnce_iff_nodup hnew hrun, nodup_iff_oneFlusher hrun]
  constructor
  · exact fun h => hpair.1 h.one
  · exact fun h => ⟨hpair.2 h, hlen⟩

end Store

end Smallkv
