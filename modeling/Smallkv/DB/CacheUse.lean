import Smallkv.Cache.Tidy
import Smallkv.DB.Format

/-!
# DB.CacheUse — how the database uses its cache

A `Put` inserts, a `Delete` erases, and a `Get` takes the node of a key that is
there or may insert a key that is not (`step_cache`). No call releases what it
took: the cache stays tidy exactly as long as every `Put` and every `Get` finds
its key not in the cache (`cache_tidy_iff`).
-/

namespace Smallkv

open Fallible

namespace DBImpl

variable {host : Host} {sst : SstFormat} {options : Options} {disk : Disk} {db db' : DBImpl}

/-- What a call makes of the cache. -/
def CacheStep (host : Host) (db db' : DBImpl) : Op → Prop
  | .write (.put _ key value) =>
    db.cache.insert host.hash (cString key) (cString value) = .ok db'.cache
  | .write (.delete _ key) => db.cache.erase host.hash (cString key) = .ok db'.cache
  | .get key =>
    (db.cache.contains host.hash (cString key) = true ∧
        ∃ node, db.cache.get host.hash (cString key) = .ok (db'.cache, node)) ∨
      (db.cache.contains host.hash (cString key) = false ∧
        (db'.cache = db.cache ∨
          ∃ val, db.cache.insert host.hash (cString key) val = .ok db'.cache))

/-! ## Taking the calls apart -/

theorem memTableToSST_cache (hrun : db.memTableToSST host sst = .ok db') :
    db'.cache = db.cache := by
  rcases bind_eq_ok.1 hrun with ⟨content, -, hrun⟩
  rcases bind_eq_ok.1 hrun with ⟨entries, -, hrun⟩
  rcases bind_eq_ok.1 hrun with ⟨bytes, -, hrun⟩
  cases hrun
  rfl

theorem flushIfFull_cache (hrun : db.flushIfFull host sst = .ok db') : db'.cache = db.cache := by
  unfold flushIfFull at hrun
  split at hrun
  · rcases bind_eq_ok.1 hrun with ⟨db₁, hflush, hrun⟩
    have hsame : db₁.cache = db.cache := memTableToSST_cache hflush
    cases hrun
    exact hsame
  · cases hrun
    rfl

theorem writeLog_cache {key value : Bytes} (hrun : db.writeLog host key value = .ok db') :
    db'.cache = db.cache := by
  rcases bind_eq_ok.1 hrun with ⟨w, -, hrun⟩
  cases hrun
  rfl

theorem putMemTable_cache {flips : List Bool} {key value : Bytes}
    (hrun : db.putMemTable flips key value = .ok db') : db'.cache = db.cache := by
  rcases bind_eq_ok.1 hrun with ⟨present, -, hrun⟩
  cases present with
  | true =>
      rcases bind_eq_ok.1 hrun with ⟨t, -, hrun⟩
      cases hrun
      rfl
  | false =>
      rcases bind_eq_ok.1 hrun with ⟨t, -, hrun⟩
      cases hrun
      rfl

theorem deleteMemTable_cache {flips : List Bool} {key : Bytes}
    (hrun : db.deleteMemTable flips key = .ok db') : db'.cache = db.cache := by
  rcases bind_eq_ok.1 hrun with ⟨present, -, hrun⟩
  cases present with
  | true =>
      rcases bind_eq_ok.1 hrun with ⟨t, -, hrun⟩
      cases hrun
      rfl
  | false =>
      rcases bind_eq_ok.1 hrun with ⟨t, -, hrun⟩
      cases hrun
      rfl

theorem write_cache {w : Write} (hrun : db.write host sst w = .ok db') :
    CacheStep host db db' (.write w) := by
  rw [write_eq_run host sst (open_of_write_ok hrun)] at hrun
  cases w with
  | put flips key value =>
      rcases bind_eq_ok.1 hrun with ⟨db₁, hlog, hrun⟩
      rcases bind_eq_ok.1 hrun with ⟨db₂, hmem, hrun⟩
      rcases bind_eq_ok.1 hrun with ⟨db₃, hcache, hrun⟩
      rcases bind_eq_ok.1 hrun with ⟨db₄, hflush, hrun⟩
      cases hrun
      rcases bind_eq_ok.1 hcache with ⟨c, hins, hcache⟩
      cases hcache
      rw [CacheStep, flushIfFull_cache hflush, ← writeLog_cache hlog, ← putMemTable_cache hmem]
      exact hins
  | delete flips key =>
      rcases bind_eq_ok.1 hrun with ⟨db₁, hlog, hrun⟩
      rcases bind_eq_ok.1 hrun with ⟨db₂, hmem, hrun⟩
      rcases bind_eq_ok.1 hrun with ⟨db₃, hcache, hrun⟩
      rcases bind_eq_ok.1 hrun with ⟨db₄, hflush, hrun⟩
      cases hrun
      rcases bind_eq_ok.1 hcache with ⟨c, her, hcache⟩
      cases hcache
      rw [CacheStep, flushIfFull_cache hflush, ← writeLog_cache hlog, ← deleteMemTable_cache hmem]
      exact her

/-- Of the first two tiers only the cache is changed, by handing out a node. -/
theorem getTiers_cache {key : Bytes} {val : Option Bytes}
    (hrun : db.getTiers host key = .ok (db', val)) :
    (db.cache.contains host.hash (cString key) = true ∧ val ≠ none ∧
        ∃ node, db.cache.get host.hash (cString key) = .ok (db'.cache, node)) ∨
      (db.cache.contains host.hash (cString key) = false ∧ db' = db) := by
  unfold getTiers at hrun
  cases hcontains : db.cache.contains host.hash (cString key) with
  | true =>
      rw [hcontains, if_pos rfl] at hrun
      rcases bind_eq_ok.1 hrun with ⟨⟨c, node⟩, hget, hrun⟩
      rcases bind_eq_ok.1 hrun with ⟨p, -, hrun⟩
      rcases bind_eq_ok.1 hrun with ⟨v, -, hrun⟩
      cases hrun
      exact Or.inl ⟨rfl, by simp, node, hget⟩
  | false =>
      rw [hcontains, if_neg Bool.false_ne_true] at hrun
      refine Or.inr ⟨rfl, ?_⟩
      rcases bind_eq_ok.1 hrun with ⟨present, -, hrun⟩
      cases present with
      | true =>
          rw [if_pos rfl] at hrun
          rcases bind_eq_ok.1 hrun with ⟨v, -, hrun⟩
          rcases bind_eq_ok.1 hrun with ⟨v', -, hrun⟩
          rcases bind_eq_ok.1 hrun with ⟨v'', -, hrun⟩
          cases hrun
          rfl
      | false =>
          rw [if_neg Bool.false_ne_true] at hrun
          cases hrun
          rfl

theorem get_cache {key out : Bytes} {answer : DBStatus × Bytes}
    (hrun : db.get host sst key out = .ok (db', answer)) : CacheStep host db db' (.get key) := by
  rcases bind_eq_ok.1 hrun with ⟨-, -, hrun⟩
  rcases bind_eq_ok.1 hrun with ⟨⟨db₁, val⟩, htiers, hrun⟩
  rcases getTiers_cache htiers with ⟨hcontains, hval, node, hget⟩ | ⟨hcontains, rfl⟩
  · cases val with
    | none => exact absurd rfl hval
    | some v =>
        cases hrun
        exact Or.inl ⟨hcontains, node, hget⟩
  · refine Or.inr ⟨hcontains, ?_⟩
    cases val with
    | some v =>
        cases hrun
        exact Or.inl rfl
    | none =>
        rcases bind_eq_ok.1 hrun with ⟨content, -, hrun⟩
        rcases bind_eq_ok.1 hrun with ⟨found, -, hrun⟩
        cases found with
        | none =>
            cases hrun
            exact Or.inl rfl
        | some v =>
            -- the value that was found goes into the cache
            rcases bind_eq_ok.1 hrun with ⟨c, hins, hrun⟩
            cases hrun
            exact Or.inr ⟨v, hins⟩

theorem step_cache {op : Op} (hrun : db.step host sst op = .ok db') :
    CacheStep host db db' op := by
  cases op with
  | write w => exact write_cache hrun
  | get key =>
      rcases bind_eq_ok.1 hrun with ⟨⟨dbGet, answer⟩, hget, hrun⟩
      cases hrun
      exact get_cache hget

/-! ## Runs -/

theorem step_stocked (h : db.cache.Stocked) {op : Op} (hrun : db.step host sst op = .ok db') :
    db'.cache.Stocked := by
  have hcache := step_cache hrun
  cases op with
  | write w =>
      cases w with
      | put flips key value => exact h.insert hcache
      | delete flips key => exact h.erase hcache
  | get key =>
      rcases hcache with ⟨-, node, hget⟩ | ⟨-, hsame | ⟨val, hins⟩⟩
      · exact h.get hget
      · rwa [hsame]
      · exact h.insert hins

theorem run_stocked {ops : List Op}
    (hrun : run (step host sst) (openDB options disk) ops = .ok db) : db.cache.Stocked :=
  run_invariant (fun db => db.cache.Stocked) (fun _ _ _ h hstep => step_stocked h hstep)
    (Cache.new_stocked options.cacheSize) hrun

/-- A `Put` and a `Get` do not find their key in the cache. -/
def MissesCache (host : Host) (db : DBImpl) : Op → Prop
  | .write (.put _ key _) => db.cache.contains host.hash (cString key) = false
  | .write (.delete _ _) => True
  | .get key => db.cache.contains host.hash (cString key) = false

theorem step_tidy_iff (h : db.cache.Stocked) (ht : db.cache.Tidy) {op : Op}
    (hrun : db.step host sst op = .ok db') : db'.cache.Tidy ↔ MissesCache host db op := by
  have hcache := step_cache hrun
  cases op with
  | write w =>
      cases w with
      | put flips key value => exact Cache.insert_tidy_iff h ht hcache
      | delete flips key => exact iff_of_true (Cache.erase_tidy h ht hcache) trivial
  | get key =>
      rcases hcache with ⟨-, node, hget⟩ | ⟨hmiss, hsame | ⟨val, hins⟩⟩
      · exact Cache.get_tidy_iff h ht hget
      · rw [hsame]
        exact iff_of_true ht hmiss
      · exact Cache.insert_tidy_iff h ht hins

end DBImpl

open DBImpl

/-- All through a run the cache is tidy, exactly if no `Put` and no `Get` of the
run finds its key in the cache. -/
theorem cache_tidy_iff (host : Host) (sst : SstFormat) (options : Options) (disk : Disk)
    {ops : List Op} {db : DBImpl}
    (hrun : run (step host sst) (openDB options disk) ops = .ok db) :
    Always (step host sst) (fun _ db => db.cache.Tidy) (openDB options disk) ops ↔
      GuardedRun (step host sst) (MissesCache host) (openDB options disk) ops db := by
  refine always_iff_guardedRun (Cache.new_tidy options.cacheSize) ?_ hrun
  intro as db₁ op db₂ _ has ht hstep
  exact step_tidy_iff (run_stocked has) ht hstep

/-- One `Put`. -/
theorem cache_tidy_iff_put :
    ∃ db, run (step plainHost plainFormat) (openDB Options.default Disk.empty)
        [.write (.put [] (ascii "a") (ascii "x"))] = .ok db ∧
      (Always (step plainHost plainFormat) (fun _ db => db.cache.Tidy)
          (openDB Options.default Disk.empty) [.write (.put [] (ascii "a") (ascii "x"))] ↔
        GuardedRun (step plainHost plainFormat) (MissesCache plainHost)
          (openDB Options.default Disk.empty) [.write (.put [] (ascii "a") (ascii "x"))] db) :=
  ⟨_, rfl, cache_tidy_iff plainHost plainFormat Options.default Disk.empty rfl⟩

/-- A `Get` that finds its key in the cache leaves it referenced. -/
theorem hit_leaves_reference :
    ¬ Always (step plainHost plainFormat) (fun _ db => db.cache.Tidy)
      (openDB Options.default Disk.empty)
      [.write (.put [] (ascii "a") (ascii "x")), .get (ascii "a")] := by
  intro h
  have htidy := h _ (List.prefix_refl _) _ rfl 0
  have hone := htidy.count_one 0 (List.mem_singleton.2 rfl) _ rfl
  cases hone

end Smallkv
