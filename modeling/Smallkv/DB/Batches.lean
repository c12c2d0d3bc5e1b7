import Smallkv.DB.FlushTest

/-!
# DB.Batches — which pairs go into which table

A client can tell from its own calls what every table of the session is built of:
the pairs since the last table, each key once with its last value, until their bytes
reach the limit. So a session builds a table for every such batch and no other, no
batch is larger than the limit and one pair more, and what no table was built of yet
is below the limit. What a table then holds is the builder's matter: it leaves out
the pair under the empty key.
-/

namespace Smallkv

open Fallible Assoc SkipList

namespace DBImpl

/-! ## The batches of a client -/

/-- The batches that are full, newest first, and the pairs behind them. -/
structure Batches where
  full : List (List (Bytes × Bytes))
  held : List (Bytes × Bytes)

def Batches.add (max : ℕ) (s : Batches) : Op → Batches
  | .write w =>
    if max ≤ bytesOf (heldAfter s.held w) then ⟨heldAfter s.held w :: s.full, []⟩
    else ⟨s.full, heldAfter s.held w⟩
  | .get _ => s

def batches (max : ℕ) (ops : List Op) : Batches := ops.foldl (Batches.add max) ⟨[], []⟩

theorem batches_concat (max : ℕ) (ops : List Op) (op : Op) :
    batches max (ops ++ [op]) = (batches max ops).add max op := by
  simp [batches]

/-- The pairs behind the batches are the unflushed ones. -/
theorem held_eq_unflushed (max : ℕ) (ops : List Op) : (batches max ops).held = unflushed max ops := by
  induction ops using List.reverseRecOn with
  | nil => rfl
  | append_singleton ops op ih =>
      rw [batches_concat, unflushed_concat]
      cases op with
      | get key => exact ih
      | write w =>
          rw [Batches.add, unflushedStep, ih]
          split <;> rfl

/-! ## Their sizes -/

/-- A write makes what is held larger by its own pair at most. -/
theorem bytesOf_heldAfter_le (held : List (Bytes × Bytes)) (w : Write) :
    bytesOf (heldAfter held w) ≤ bytesOf held + w.bytes := by
  have hfilter : bytesOf (held.filter fun p => p.1 ≠ cString w.key) ≤ bytesOf held := by
    exact List.Sublist.sum_le_sum (List.filter_sublist.map _) fun n _ => Nat.zero_le n
  have hcons : bytesOf (heldAfter held w) =
      w.bytes + bytesOf (held.filter fun p => p.1 ≠ cString w.key) := by
    rw [bytesOf, heldAfter, setPair, List.map_cons, List.sum_cons]
    rfl
  omega

/-- What no table has is below the limit; a limit of zero leaves nothing. -/
theorem unflushed_lt (max : ℕ) (ops : List Op) :
    unflushed max ops = [] ∨ bytesOf (unflushed max ops) < max := by
  induction ops using List.reverseRecOn with
  | nil => exact Or.inl rfl
  | append_singleton ops op ih =>
      rw [unflushed_concat]
      cases op with
      | get key => exact ih
      | write w =>
          rw [unflushedStep]
          split
          · exact Or.inl rfl
          · exact Or.inr (by omega)

theorem bytesOf_unflushed_le (max : ℕ) (ops : List Op) : bytesOf (unflushed max ops) ≤ max := by
  rcases unflushed_lt max ops with hnil | hlt
  · rw [hnil]
    exact Nat.zero_le max
  · exact hlt.le

theorem mem_writes_of_called {ops pre : List Op} {w : Write} (hpre : pre ++ [.write w] <+: ops) :
    w ∈ writes ops := by
  rcases hpre with ⟨post, rfl⟩
  induction pre with
  | nil => exact List.mem_cons_self
  | cons op pre ih =>
      cases op with
      | write w' => exact List.mem_cons_of_mem w' ih
      | get key => exact ih

/-- One pair more than the limit is all that is ever weighed. -/
theorem sizesFit_of_writes {max : ℕ} {ops : List Op}
    (hfit : ∀ w ∈ writes ops, max + w.bytes < 2 ^ 64) : SizesFit max ops := by
  intro pre w hpre
  have hmem := mem_writes_of_called hpre
  have hle := bytesOf_heldAfter_le (unflushed max pre) w
  have hheld := bytesOf_unflushed_le max pre
  have hw := hfit w hmem
  rw [weighed]
  omega

/-- A batch has reached the limit, with the pair of one of the writes. -/
structure BatchSized (max : ℕ) (ws : List Write) (batch : List (Bytes × Bytes)) : Prop where
  nodup : (batch.map Prod.fst).Nodup
  reached : max ≤ bytesOf batch
  bounded : ∃ w ∈ ws, bytesOf batch ≤ max + w.bytes

theorem BatchSized.mono {max : ℕ} {ws ws' : List Write} {batch : List (Bytes × Bytes)}
    (h : BatchSized max ws batch) (hws : ws ⊆ ws') : BatchSized max ws' batch where
  nodup := h.nodup
  reached := h.reached
  bounded := by
    rcases h.bounded with ⟨w, hw, hle⟩
    exact ⟨w, hws hw, hle⟩

theorem batches_sized (max : ℕ) (ops : List Op) :
    ∀ batch ∈ (batches max ops).full, BatchSized max (writes ops) batch := by
  induction ops using List.reverseRecOn with
  | nil => simp [batches]
  | append_singleton ops op ih =>
      rw [batches_concat]
      cases op with
      | get key =>
          rw [writes_concat_get]
          exact ih
      | write w =>
          rw [writes_concat_write, Batches.add]
          have hold : ∀ batch ∈ (batches max ops).full,
              BatchSized max (writes ops ++ [w]) batch :=
            fun batch hbatch => (ih batch hbatch).mono (List.subset_append_left _ _)
          split
          · rename_i hfull
            intro batch hbatch
            rcases List.mem_cons.1 hbatch with rfl | hbatch
            · rw [held_eq_unflushed] at hfull ⊢
              refine ⟨heldAfter_nodup (unflushed_nodup max ops) w, hfull, w, by simp, ?_⟩
              have hle := bytesOf_heldAfter_le (unflushed max ops) w
              have hheld := bytesOf_unflushed_le max ops
              omega
            · exact hold batch hbatch
          · exact hold

/-! ## The tables -/

variable {host : Host} {sst : SstFormat} {options : Options} {disk : Disk} {db : DBImpl}

/-- The pairs of the batch were handed to the builder, in the order of their keys, and
the table is what it made of them. -/
structure TableOf (sst : SstFormat) (f : Flush) (batch : List (Bytes × Bytes)) : Prop where
  sorted : f.entries.Pairwise fun a b => a.1 < b.1
  handed : f.entries.Perm batch
  built : sst.build (asInt32 f.entries.length) f.entries = .ok f.bytes

theorem run_batches {ops : List Op} (hfit : SizesFit options.memTableMaxSize ops)
    (hrun : run (step host sst) (openDB options disk) ops = .ok db) :
    List.Forall₂ (TableOf sst) db.flushes (batches options.memTableMaxSize ops).full := by
  induction ops using List.reverseRecOn generalizing db with
  | nil =>
      cases hrun
      exact .nil
  | append_singleton ops op ih =>
      rcases run_concat_ok.1 hrun with ⟨db₀, hrun₀, hstep⟩
      have hfit₀ := hfit.mono (List.prefix_append ops [op])
      have htables := ih hfit₀ hrun₀
      rcases run_unflushed hfit₀ hrun₀ with ⟨cached, h⟩
      rw [batches_concat]
      cases op with
      | get key =>
          rcases step_cases h hstep with ⟨db₁, cached₁, -, hsame, rfl | ⟨w, f, hw, -, -⟩⟩
          · rw [hsame.flushes]
            exact htables
          · cases hw
      | write w =>
          rcases write_cases h hstep with ⟨db₁, cached₁, -, h₁, -, hsame, hflush⟩
          rw [← toMap_heldAfter] at h₁ hflush
          have hnodup := heldAfter_nodup (unflushed_nodup options.memTableMaxSize ops) w
          have hmax : db₁.options.memTableMaxSize = options.memTableMaxSize := by
            rw [hsame.options, run_maxSize hrun₀]
          have hfull := ((comparesTrueSize_iff hnodup h₁ hmax).2
            (hfit ops w (List.prefix_refl _))).full
          rw [Batches.add, held_eq_unflushed]
          rcases hflush with ⟨hnot, rfl⟩ | ⟨hyes, f, hf, -⟩
          · rw [if_neg (mt hfull.2 hnot), hsame.flushes]
            exact htables
          · rw [if_pos (hfull.1 hyes), hf.flushes, hsame.flushes]
            refine .cons ⟨hf.sorted, ?_, hf.bytes⟩ htables
            exact perm_of_toMap_eq (nodup_keys_of_sorted hf.sorted) hnodup hf.entries

end DBImpl

open DBImpl

/-- In every run whose sizes fit a `size_t`: the tables of the session are built of the
batches of its writes, one for one, each of them with at least the limit and at most one
pair more; the memtable has the pairs behind the last batch, which are below the limit. -/
theorem tables_are_batches (host : Host) (sst : SstFormat) (options : Options) (disk : Disk)
    {ops : List Op} (hfit : ∀ w ∈ writes ops, options.memTableMaxSize + w.bytes < 2 ^ 64)
    {db : DBImpl} (hrun : run (step host sst) (openDB options disk) ops = .ok db) :
    List.Forall₂ (TableOf sst) db.flushes (batches options.memTableMaxSize ops).full ∧
      (∀ batch ∈ (batches options.memTableMaxSize ops).full,
        BatchSized options.memTableMaxSize (writes ops) batch) ∧
      (∃ entries, db.memTable.entries = .ok entries ∧
        entries.Pairwise (fun a b => a.1 < b.1) ∧
        entries.Perm (batches options.memTableMaxSize ops).held) ∧
      (0 < options.memTableMaxSize →
        bytesOf (batches options.memTableMaxSize ops).held < options.memTableMaxSize) := by
  have hsizes := sizesFit_of_writes hfit
  refine ⟨run_batches hsizes hrun, batches_sized _ ops, ?_, ?_⟩
  · rcases run_unflushed hsizes hrun with ⟨cached, h⟩
    rcases (SkipList.Represents.counted (unflushed_nodup _ ops) h.memTable).1 with
      ⟨entries, hentries, hsorted, hperm⟩
    rw [held_eq_unflushed]
    exact ⟨entries, hentries, hsorted, hperm⟩
  · intro hpos
    rw [held_eq_unflushed]
    rcases unflushed_lt options.memTableMaxSize ops with hnil | hlt
    · rw [hnil]
      exact hpos
    · exact hlt

/-- Of these calls the first and the third fill a table. -/
def fillsTwice : List Op :=
  [.write (.put [] (ascii "a") (ascii "1")), .write (.put [] (ascii "b") []),
    .write (.put [true] (ascii "b") (ascii "2")), .get (ascii "b"), .write (.delete [] (ascii "c"))]

theorem tables_are_batches_twice :
    ∃ db, run (step plainHost plainFormat)
        (openDB { tinyOptions (ascii "/db") (by decide) with cacheSize := 1 } Disk.empty) fillsTwice =
          .ok db ∧
      List.Forall₂ (TableOf plainFormat) db.flushes (batches 2 fillsTwice).full ∧
      (∀ batch ∈ (batches 2 fillsTwice).full, BatchSized 2 (writes fillsTwice) batch) ∧
      (∃ entries, db.memTable.entries = .ok entries ∧
        entries.Pairwise (fun a b => a.1 < b.1) ∧
        entries.Perm (batches 2 fillsTwice).held) ∧
      (0 < 2 → bytesOf (batches 2 fillsTwice).held < 2) := by
  have hfit : ∀ w ∈ writes fillsTwice, 2 + w.bytes < 2 ^ 64 := by decide
  exact ⟨_, rfl, tables_are_batches plainHost plainFormat
    { tinyOptions (ascii "/db") (by decide) with cacheSize := 1 } Disk.empty hfit rfl⟩

end Smallkv
