import Smallkv.DB.Overlay
import Smallkv.MemTable.Counters

/-!
# DB.FlushTest — what the flush test weighs

`unflushed` replays the calls of a client on a plain list of pairs that is
emptied when its bytes reach the limit. The memtable follows it: what
`GetMemUsage` reports at the flush test of a write are the bytes of these
pairs, and the test weighs them rightly until they no longer fit a `size_t`.
-/

namespace Smallkv

open Fallible Assoc SkipList

namespace DBImpl

/-- The pairs behind a write: its C strings, and what was held for other keys. -/
def heldAfter (held : List (Bytes × Bytes)) (w : Write) : List (Bytes × Bytes) :=
  setPair held (cString w.key) (cString w.value)

/-- What a call makes of the pairs that no table has yet. -/
def unflushedStep (max : ℕ) (held : List (Bytes × Bytes)) : Op → List (Bytes × Bytes)
  | .write w => if max ≤ bytesOf (heldAfter held w) then [] else heldAfter held w
  | .get _ => held

def unflushed (max : ℕ) (ops : List Op) : List (Bytes × Bytes) :=
  ops.foldl (unflushedStep max) []

theorem unflushed_concat (max : ℕ) (ops : List Op) (op : Op) :
    unflushed max (ops ++ [op]) = unflushedStep max (unflushed max ops) op := by
  simp [unflushed]

/-- The pairs the flush test of the write `w` has to weigh. -/
def weighed (max : ℕ) (pre : List Op) (w : Write) : List (Bytes × Bytes) :=
  heldAfter (unflushed max pre) w

/-- Before its last step a write has brought the memtable to the given pairs:
the flush test compares their true size with the limit. -/
structure ComparesTrueSize (max : ℕ) (held : List (Bytes × Bytes)) (db : DBImpl) : Prop where
  compared : asSizeT db.memTable.getMemUsage = bytesOf held
  full : db.Full ↔ max ≤ bytesOf held

/-- All flush tests in a run compare true sizes. -/
def FlushTestsExact (host : Host) (sst : SstFormat) (options : Options) (disk : Disk)
    (ops : List Op) : Prop :=
  ∀ pre w, pre ++ [.write w] <+: ops → ∀ db₀ db₁,
    run (step host sst) (openDB options disk) pre = .ok db₀ →
      run (execStage host sst) db₀ w.steps = .ok db₁ →
        ComparesTrueSize options.memTableMaxSize (weighed options.memTableMaxSize pre w) db₁

/-- All sizes that are compared in a run fit a `size_t`. -/
def SizesFit (max : ℕ) (ops : List Op) : Prop :=
  ∀ pre w, pre ++ [.write w] <+: ops → bytesOf (weighed max pre w) < 2 ^ 64

variable {host : Host} {sst : SstFormat} {options : Options} {disk : Disk} {db db' : DBImpl}
  {cached : Bytes → Option Bytes} {max : ℕ}

theorem heldAfter_nodup {held : List (Bytes × Bytes)} (h : (held.map Prod.fst).Nodup)
    (w : Write) : ((heldAfter held w).map Prod.fst).Nodup :=
  setPair_nodup h _ _

theorem toMap_heldAfter (held : List (Bytes × Bytes)) (w : Write) :
    toMap (heldAfter held w) =
      Function.update (toMap held) (cString w.key) (some (cString w.value)) :=
  toMap_setPair held _ _

theorem unflushed_nodup (max : ℕ) (ops : List Op) :
    ((unflushed max ops).map Prod.fst).Nodup := by
  induction ops using List.reverseRecOn with
  | nil => exact List.nodup_nil
  | append_singleton ops op ih =>
      rw [unflushed_concat]
      cases op with
      | get key => exact ih
      | write w =>
          rw [unflushedStep]
          split
          · exact List.nodup_nil
          · exact heldAfter_nodup ih w

/-! ## The flush test of one write -/

theorem asSizeT_eq_iff (n : ℕ) : asSizeT n = n ↔ n < 2 ^ 64 := by
  unfold asSizeT
  omega

/-- The memtable reports the bytes of the pairs it holds, and the comparison is
made on them unless they overflow. -/
theorem comparesTrueSize_iff {held : List (Bytes × Bytes)} (hnodup : (held.map Prod.fst).Nodup)
    (h : Tracks host db (toMap held) cached) (hmax : db.options.memTableMaxSize = max) :
    ComparesTrueSize max held db ↔ bytesOf held < 2 ^ 64 := by
  have husage : db.memTable.getMemUsage = bytesOf held :=
    (SkipList.Represents.counted hnodup h.memTable).2.2
  constructor
  · intro hexact
    have hcompared := hexact.compared
    rwa [husage, asSizeT_eq_iff] at hcompared
  · intro hfit
    have hcompared : asSizeT db.memTable.getMemUsage = bytesOf held := by
      rw [husage]
      exact (asSizeT_eq_iff _).2 hfit
    refine ⟨hcompared, ?_⟩
    rw [Full, hcompared, hmax]

/-! ## Runs -/

theorem run_maxSize {ops : List Op}
    (hrun : run (step host sst) (openDB options disk) ops = .ok db) :
    db.options.memTableMaxSize = options.memTableMaxSize := by
  rcases run_flushLog hrun with ⟨hlog, -, -⟩
  rw [hlog.counter]

theorem SizesFit.mono {pre ops : List Op} (h : SizesFit max ops) (hpre : pre <+: ops) :
    SizesFit max pre :=
  fun as w has => h as w (has.trans hpre)

/-- While all sizes fit, the memtable holds the unflushed pairs. -/
theorem run_unflushed {ops : List Op} (hfit : SizesFit options.memTableMaxSize ops)
    (hrun : run (step host sst) (openDB options disk) ops = .ok db) :
    ∃ cached, Tracks host db (toMap (unflushed options.memTableMaxSize ops)) cached := by
  induction ops using List.reverseRecOn generalizing db with
  | nil =>
      cases hrun
      exact ⟨_, openDB_tracks host options disk⟩
  | append_singleton ops op ih =>
      rcases run_concat_ok.1 hrun with ⟨db₀, hrun₀, hstep⟩
      rcases ih (hfit.mono (List.prefix_append ops [op])) hrun₀ with ⟨cached, h⟩
      rw [unflushed_concat]
      cases op with
      | get key =>
          rcases step_cases h hstep with ⟨db₁, cached₁, h₁, -, rfl | ⟨w, f, hw, -, -⟩⟩
          · exact ⟨cached₁, h₁⟩
          · cases hw
      | write w =>
          rcases write_cases h hstep with ⟨db₁, cached₁, -, h₁, -, hsame, hflush⟩
          rw [← toMap_heldAfter] at h₁ hflush
          have hmax : db₁.options.memTableMaxSize = options.memTableMaxSize := by
            rw [hsame.options, run_maxSize hrun₀]
          -- the test goes as it would on the list of pairs
          have hfull := ((comparesTrueSize_iff (heldAfter_nodup (unflushed_nodup _ ops) w) h₁
            hmax).2 (hfit ops w (List.prefix_refl _))).full
          rcases hflush with ⟨hnot, rfl⟩ | ⟨hyes, f, hf, hnew⟩
          · rw [unflushedStep, if_neg (mt hfull.2 hnot)]
            exact ⟨cached₁, h₁⟩
          · rw [unflushedStep, if_pos (hfull.1 hyes)]
            exact ⟨cached₁, hf.tracks hnew h₁⟩

/-- The flush test of a write behind calls whose sizes fit. -/
theorem flushTest_iff {ops : List Op} {w : Write} (hfit : SizesFit options.memTableMaxSize ops)
    (hrun : run (step host sst) (openDB options disk) ops = .ok db)
    (hsteps : run (execStage host sst) db w.steps = .ok db') :
    ComparesTrueSize options.memTableMaxSize (weighed options.memTableMaxSize ops w) db' ↔
      bytesOf (weighed options.memTableMaxSize ops w) < 2 ^ 64 := by
  rcases run_unflushed hfit hrun with ⟨cached, h⟩
  rcases steps_ok h hsteps with ⟨cached₁, -, h₁, -, hsame⟩
  rw [← toMap_heldAfter] at h₁
  apply comparesTrueSize_iff (heldAfter_nodup (unflushed_nodup _ ops) w) h₁
  rw [hsame.options, run_maxSize hrun]

theorem flushTestsExact_iff {ops : List Op}
    (hrun : run (step host sst) (openDB options disk) ops = .ok db) :
    FlushTestsExact host sst options disk ops ↔ SizesFit options.memTableMaxSize ops := by
  constructor
  · induction ops using List.reverseRecOn generalizing db with
    | nil =>
        intro _ pre w hpre
        simp at hpre
    | append_singleton ops op ih =>
        intro hexact
        rcases run_concat_ok.1 hrun with ⟨db₀, hrun₀, hstep⟩
        have hfit : SizesFit options.memTableMaxSize ops :=
          ih hrun₀ fun pre w hpre => hexact pre w (hpre.trans (List.prefix_append ops [op]))
        intro pre w hpre
        rcases List.prefix_concat_iff.1 hpre with heq | hpre
        · -- the last call
          obtain ⟨rfl, rfl⟩ : pre = ops ∧ Op.write w = op := by simpa using heq
          rw [step, write_eq_run host sst (open_of_write_ok hstep), Write.stages,
            run_concat_ok] at hstep
          rcases hstep with ⟨db₁, hsteps, -⟩
          exact (flushTest_iff hfit hrun₀ hsteps).1 (hexact pre w (List.prefix_refl _) db₀ db₁
            hrun₀ hsteps)
        · exact hfit pre w hpre
  · intro hfit pre w hpre db₀ db₁ hrun₀ hsteps
    have hfit₀ := hfit.mono ((List.prefix_append pre [.write w]).trans hpre)
    exact (flushTest_iff hfit₀ hrun₀ hsteps).2 (hfit pre w hpre)

end DBImpl

open DBImpl

/-- The counters of a skip list are exact all through a run exactly when there
are never `2 ^ 31` pairs in it, and the flush tests of a database compare the
true sizes of the unflushed pairs exactly when these fit a `size_t`. -/
theorem accounting_exact_iff {Key Value : Type} [LinearOrder Key] [HasSize Key] [HasSize Value]
    [Inhabited Key] [Inhabited Value] (calls : List (SkipList.Op Key Value)) (host : Host)
    (sst : SstFormat) (options : Options) (disk : Disk) (ops : List DBImpl.Op) {db : DBImpl}
    (hrun : run (step host sst) (openDB options disk) ops = .ok db) :
    ((∀ pre, pre <+: calls → ∃ s log,
        run SkipList.step (SkipList.new, []) pre = .ok (s, log) ∧ CountersExact pre s) ↔
      ∀ pre, pre <+: calls → (presentPairs pre).length < 2 ^ 31) ∧
    (FlushTestsExact host sst options disk ops ↔ SizesFit options.memTableMaxSize ops) :=
  ⟨forall₂_congr fun pre _ => countersExact_iff pre, flushTestsExact_iff hrun⟩

theorem accounting_exact_iff_small :
    ((∀ pre, pre <+: [SkipList.Op.insert [true] (ascii "b") (ascii "x"), .delete (ascii "a"),
          .insert [] (ascii "b") (ascii "y")] → ∃ s log,
        run SkipList.step (SkipList.new, []) pre = .ok (s, log) ∧ CountersExact pre s) ↔
      ∀ pre, pre <+: [SkipList.Op.insert [true] (ascii "b") (ascii "x"), .delete (ascii "a"),
          .insert [] (ascii "b") (ascii "y")] → (presentPairs pre).length < 2 ^ 31) ∧
    (FlushTestsExact plainHost plainFormat (tinyOptions (ascii "db") (by decide)) Disk.empty
        [.write (.put [] (ascii "a") (ascii "x")), .write (.delete [] (ascii "a"))] ↔
      SizesFit 2 [.write (.put [] (ascii "a") (ascii "x")), .write (.delete [] (ascii "a"))]) :=
  accounting_exact_iff _ plainHost plainFormat (tinyOptions (ascii "db") (by decide)) Disk.empty
    [.write (.put [] (ascii "a") (ascii "x")), .write (.delete [] (ascii "a"))] rfl

/-- With `2 ^ 31` keys `GetSize` is negative. -/
theorem size_lost_at_wrap :
    ¬ ∃ s log, run SkipList.step (SkipList.new, [])
        ((fixedPairs (2 ^ 31)).map fun p => SkipList.Op.insert [] p.1 p.2) = .ok (s, log) ∧
      CountersExact ((fixedPairs (2 ^ 31)).map fun p => SkipList.Op.insert [] p.1 p.2) s := by
  rw [countersExact_iff, length_presentPairs_fixed (by norm_num)]
  norm_num

end Smallkv
