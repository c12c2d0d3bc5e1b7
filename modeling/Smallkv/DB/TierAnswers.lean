import Smallkv.DB.Frame
import Smallkv.DB.Overlay

/-!
# DB.TierAnswers — what the tiers make of one write

Cache, memtable and table may have the same value for a key, but they report it
each in its own way: the first two replace the caller's string, the table is
appended to it; and a tombstone is the empty string in the memtable and a
missing key in the table. `tiers_agree_iff` says when two `Get`s cannot be told
apart.
-/

namespace Smallkv

open Fallible Assoc

namespace DBImpl

/-- The key is in the cache or in the memtable. -/
def InTiers (host : Host) (db : DBImpl) (key : Bytes) : Prop := db.tierAnswer host key ≠ .ok none

/-- The cache has no other value for the key than `u`. -/
def Fresh (host : Host) (db : DBImpl) (key u : Bytes) : Prop :=
  db.cachedValue host key = .ok none ∨ db.cachedValue host key = .ok (some u)

/-- The cache still has `val` for a key whose last write stored `u`. -/
def Stale (host : Host) (db : DBImpl) (key u val : Bytes) : Prop :=
  db.cachedValue host key = .ok (some val) ∧ val ≠ u

/-- A `Get` of a key whose last write stored `u`: the database was reached by a
run, the file is read faithfully where it comes to that, and the `Get`
answers. -/
structure Reading (host : Host) (sst : SstFormat) (key u : Bytes) (db : DBImpl) (out : Bytes)
    (answer : DBStatus × Bytes) : Prop where
  reached : ∃ options disk ops, run (step host sst) (openDB options disk) ops = .ok db ∧
    lastStored (writes ops) (cString key) = some u
  faithful : ¬ InTiers host db key →
    ∀ content, db.files (resolve host.cwd (readPath db.options)) = some content →
      sst.seek content key = .ok (if u = [] then none else some u)
  answers : ∃ db', db.get host sst key out = .ok (db', answer)

/-- A `Get` that is answered by cache or memtable and one that is answered by the table
with `out` in the caller's string: a value is stored, the cache has no other one and
the string is empty. Or the cache has another one, which happens to be the string with
the value behind it. -/
structure TableAgrees (host : Host) (key u : Bytes) (db db' : DBImpl) (out : Bytes) : Prop where
  held : InTiers host db key
  missed : ¬ InTiers host db' key
  stored : u ≠ []
  value : (Fresh host db key u ∧ out = []) ∨ Stale host db key u (out ++ u)

/-- When two `Get`s of a key whose last write stored `u` give one answer. -/
inductive SameAnswer (host : Host) (key u : Bytes) (db₁ : DBImpl) (out₁ : Bytes) (db₂ : DBImpl)
    (out₂ : Bytes) : Prop
  /-- no cache has another value, or both have the same other value -/
  | tiers (h₁ : InTiers host db₁ key) (h₂ : InTiers host db₂ key)
      (hvalue : (Fresh host db₁ key u ∧ Fresh host db₂ key u) ∨
        ∃ val, Stale host db₁ key u val ∧ Stale host db₂ key u val)
  | second (h : TableAgrees host key u db₁ db₂ out₂)
  | first (h : TableAgrees host key u db₂ db₁ out₁)
  /-- what is not changed or is appended to is the same -/
  | table (h₁ : ¬ InTiers host db₁ key) (h₂ : ¬ InTiers host db₂ key) (hout : out₁ = out₂)

variable {host : Host} {sst : SstFormat} {options : Options} {disk : Disk} {db db' : DBImpl}
  {mem cached : Bytes → Option Bytes}

/-! ## The memtable knows last writes only -/

theorem run_memTable {ops : List Op}
    (hrun : run (step host sst) (openDB options disk) ops = .ok db) :
    ∃ mem cached, Tracks host db mem cached ∧ Submap mem (lastStored (writes ops)) := by
  rcases run_layers hrun with ⟨mem, cached, h, hmap⟩
  exact ⟨mem, cached, h, hmap ▸ submap_overlay mem _⟩

/-! ## Answers -/

variable {key u out : Bytes} {answer : DBStatus × Bytes}

theorem Fresh.not_stale {val : Bytes} (h : Fresh host db key u) : ¬ Stale host db key u val := by
  rintro ⟨hval, hne⟩
  rcases h with hnone | hsome
  · rw [hnone] at hval
    cases hval
  · rw [hsome] at hval
    cases hval
    exact hne rfl

theorem Stale.unique {val val' : Bytes} (h : Stale host db key u val)
    (h' : Stale host db key u val') : val = val' := by
  have heq := h.1.symm.trans h'.1
  cases heq
  rfl

/-- The first two tiers answer with the value they have: the last one, unless the cache
has another. -/
theorem Reading.answer_of_inTiers (h : Reading host sst key u db out answer)
    (htiers : InTiers host db key) :
    ∃ val, answer = (Status.success, val) ∧
      ((Fresh host db key u ∧ val = u) ∨ Stale host db key u val) := by
  rcases h.reached with ⟨options, disk, ops, hrun, hlast⟩
  rcases run_memTable hrun with ⟨mem, cached, htracks, hmem⟩
  rcases h.answers with ⟨db', hget⟩
  rcases answer with ⟨status, out'⟩
  rw [InTiers, tierAnswer_spec htracks] at htiers
  unfold Fresh Stale
  rw [cachedValue_spec htracks]
  rcases get_cases htracks hget with ⟨-, ⟨-, rfl, hval⟩ | ⟨hcached, hnone, -⟩⟩
  · refine ⟨out', rfl, ?_⟩
    cases hc : cached (cString key) with
    | some v =>
        rw [hc, Option.some_or] at hval
        cases hval
        by_cases hu : out' = u
        · exact Or.inl ⟨Or.inr (by rw [hu]), hu⟩
        · exact Or.inr ⟨rfl, hu⟩
    | none =>
        rw [hc, Option.none_or] at hval
        have hstored := hmem _ _ hval
        rw [hlast] at hstored
        exact Or.inl ⟨Or.inl rfl, (Option.some.inj hstored).symm⟩
  · rw [hcached, hnone] at htiers
    exact absurd rfl htiers

/-- The table's value is appended, and its tombstones are not found. -/
theorem Reading.answer_of_not_inTiers (h : Reading host sst key u db out answer)
    (htiers : ¬ InTiers host db key) :
    answer = if u = [] then (Status.notFound, out) else (Status.success, out ++ u) := by
  rcases h.reached with ⟨options, disk, ops, hrun, -⟩
  rcases run_memTable hrun with ⟨mem, cached, htracks, -⟩
  rcases h.answers with ⟨db', hget⟩
  rcases answer with ⟨status, out'⟩
  have hfaithful := h.faithful htiers
  rw [InTiers, tierAnswer_spec htracks, not_not] at htiers
  rcases get_cases htracks hget with ⟨-, ⟨-, -, hval⟩ | ⟨-, -, content, hfile, hread⟩⟩
  · rw [Except.ok.inj htiers] at hval
    cases hval
  · have hseek := hfaithful content hfile
    rcases hread with ⟨hnone, -, rfl, rfl⟩ | ⟨val, cached', hsome, -, -, rfl, rfl⟩
    · rw [hnone] at hseek
      by_cases hu : u = []
      · rw [if_pos hu]
      · rw [if_neg hu] at hseek
        cases hseek
    · rw [hsome] at hseek
      by_cases hu : u = []
      · rw [if_pos hu] at hseek
        cases hseek
      · rw [if_neg hu] at hseek ⊢
        cases hseek
        rfl

/-- An appended value is never what is reported for a tombstone. -/
theorem table_answer_iff (u val out : Bytes) :
    (Status.success, val) = (if u = [] then (Status.notFound, out) else (Status.success, out ++ u)) ↔
      u ≠ [] ∧ val = out ++ u := by
  have hstatus : Status.success ≠ Status.notFound := by decide
  by_cases hu : u = []
  · simp [hu, hstatus]
  · rw [if_neg hu, Prod.mk.injEq]
    simp [hu]

/-- Cache or memtable on one side, the table on the other. -/
theorem Reading.mixed_iff {db₁ db₂ : DBImpl} {out₁ out₂ : Bytes} {answer₁ answer₂ : DBStatus × Bytes}
    (h₁ : Reading host sst key u db₁ out₁ answer₁) (h₂ : Reading host sst key u db₂ out₂ answer₂)
    (ht₁ : InTiers host db₁ key) (ht₂ : ¬ InTiers host db₂ key) :
    answer₁ = answer₂ ↔ TableAgrees host key u db₁ db₂ out₂ := by
  rcases h₁.answer_of_inTiers ht₁ with ⟨val, rfl, hval⟩
  rw [h₂.answer_of_not_inTiers ht₂, table_answer_iff]
  constructor
  · rintro ⟨hu, rfl⟩
    refine ⟨ht₁, ht₂, hu, ?_⟩
    rcases hval with ⟨hfresh, heq⟩ | hstale
    · exact Or.inl ⟨hfresh, by simpa using heq⟩
    · exact Or.inr hstale
  · rintro ⟨-, -, hu, hvalue⟩
    refine ⟨hu, ?_⟩
    rcases hval with ⟨hfresh, rfl⟩ | hstale
    · rcases hvalue with ⟨-, rfl⟩ | hstale
      · rfl
      · exact absurd hstale hfresh.not_stale
    · rcases hvalue with ⟨hfresh, -⟩ | hstale'
      · exact absurd hstale hfresh.not_stale
      · exact hstale.unique hstale'

/-- Cache or memtable on both sides. -/
theorem Reading.tiers_iff {db₁ db₂ : DBImpl} {out₁ out₂ : Bytes} {answer₁ answer₂ : DBStatus × Bytes}
    (h₁ : Reading host sst key u db₁ out₁ answer₁) (h₂ : Reading host sst key u db₂ out₂ answer₂)
    (ht₁ : InTiers host db₁ key) (ht₂ : InTiers host db₂ key) :
    answer₁ = answer₂ ↔ (Fresh host db₁ key u ∧ Fresh host db₂ key u) ∨
      ∃ val, Stale host db₁ key u val ∧ Stale host db₂ key u val := by
  rcases h₁.answer_of_inTiers ht₁ with ⟨val₁, rfl, hval₁⟩
  rcases h₂.answer_of_inTiers ht₂ with ⟨val₂, rfl, hval₂⟩
  constructor
  · intro heq
    cases heq
    rcases hval₁ with ⟨hfresh₁, rfl⟩ | hstale₁
    · rcases hval₂ with ⟨hfresh₂, -⟩ | ⟨-, hne⟩
      · exact Or.inl ⟨hfresh₁, hfresh₂⟩
      · exact absurd rfl hne
    · rcases hval₂ with ⟨-, rfl⟩ | hstale₂
      · exact absurd rfl hstale₁.2
      · exact Or.inr ⟨val₁, hstale₁, hstale₂⟩
  · rintro (⟨hfresh₁, hfresh₂⟩ | ⟨val, hstale₁, hstale₂⟩)
    · obtain ⟨-, rfl⟩ := hval₁.resolve_right hfresh₁.not_stale
      obtain ⟨-, rfl⟩ := hval₂.resolve_right hfresh₂.not_stale
      rfl
    · have hsame₁ := (hval₁.resolve_left fun h => h.1.not_stale hstale₁).unique hstale₁
      have hsame₂ := (hval₂.resolve_left fun h => h.1.not_stale hstale₂).unique hstale₂
      rw [hsame₁, hsame₂]

/-- The table on both sides. -/
theorem Reading.table_iff {db₁ db₂ : DBImpl} {out₁ out₂ : Bytes} {answer₁ answer₂ : DBStatus × Bytes}
    (h₁ : Reading host sst key u db₁ out₁ answer₁) (h₂ : Reading host sst key u db₂ out₂ answer₂)
    (ht₁ : ¬ InTiers host db₁ key) (ht₂ : ¬ InTiers host db₂ key) :
    answer₁ = answer₂ ↔ out₁ = out₂ := by
  rw [h₁.answer_of_not_inTiers ht₁, h₂.answer_of_not_inTiers ht₂]
  by_cases hu : u = []
  · simp [hu]
  · simp [hu]

end DBImpl

open DBImpl

/-- Two `Get`s of a key with the same last write, in whatever databases and with
whatever in the caller's string, give one answer exactly under the condition
that `SameAnswer` puts on the databases and the strings. -/
theorem tiers_agree_iff {host : Host} {sst : SstFormat} {key u : Bytes} {db₁ db₂ : DBImpl}
    {out₁ out₂ : Bytes} {answer₁ answer₂ : DBStatus × Bytes}
    (h₁ : Reading host sst key u db₁ out₁ answer₁)
    (h₂ : Reading host sst key u db₂ out₂ answer₂) :
    answer₁ = answer₂ ↔ SameAnswer host key u db₁ out₁ db₂ out₂ := by
  constructor
  · intro heq
    by_cases ht₁ : InTiers host db₁ key
    · by_cases ht₂ : InTiers host db₂ key
      · exact .tiers ht₁ ht₂ ((h₁.tiers_iff h₂ ht₁ ht₂).1 heq)
      · exact .second ((h₁.mixed_iff h₂ ht₁ ht₂).1 heq)
    · by_cases ht₂ : InTiers host db₂ key
      · exact .first ((h₂.mixed_iff h₁ ht₂ ht₁).1 heq.symm)
      · exact .table ht₁ ht₂ ((h₁.table_iff h₂ ht₁ ht₂).1 heq)
  · intro hsame
    cases hsame with
    | tiers ht₁ ht₂ hvalue => exact (h₁.tiers_iff h₂ ht₁ ht₂).2 hvalue
    | second h => exact (h₁.mixed_iff h₂ h.held h.missed).2 h
    | first h => exact ((h₂.mixed_iff h₁ h.held h.missed).2 h).symm
    | table ht₁ ht₂ hout => exact (h₁.table_iff h₂ ht₁ ht₂).2 hout

/-- A deletion that is still in the memtable. -/
theorem deleted_in_memTable : ∃ db, Reading plainHost plainFormat (ascii "aa") [] db []
    (Status.success, []) := by
  have hrun : ∃ db, run (step plainHost plainFormat) (openDB Options.default Disk.empty)
      [.write (.delete [] (ascii "aa"))] = .ok db ∧
        db.tierAnswer plainHost (ascii "aa") = .ok (some []) ∧
        ∃ db', db.get plainHost plainFormat (ascii "aa") [] = .ok (db', Status.success, []) :=
    ⟨_, rfl, rfl, _, rfl⟩
  rcases hrun with ⟨db, hrun, htiers, hget⟩
  refine ⟨db, ⟨_, _, _, hrun, rfl⟩, ?_, hget⟩
  intro hnot
  rw [InTiers, htiers] at hnot
  exact absurd (fun h => by cases h) hnot

/-- The same deletion, once a flush has moved it into the table. -/
theorem deleted_in_table : ∃ db, Reading plainHost plainFormat (ascii "aa") [] db []
    (Status.notFound, []) := by
  have hrun : ∃ db, run (step plainHost plainFormat)
      (openDB (tinyOptions (ascii "db/") (by decide)) Disk.empty)
        [.write (.delete [] (ascii "aa"))] = .ok db ∧
      (∃ content, db.files (resolve plainHost.cwd (readPath db.options)) = some content ∧
        plainFormat.seek content (ascii "aa") = .ok none) ∧
      ∃ db', db.get plainHost plainFormat (ascii "aa") [] = .ok (db', Status.notFound, []) :=
    ⟨_, rfl, ⟨_, rfl, rfl⟩, _, rfl⟩
  rcases hrun with ⟨db, hrun, ⟨content, hfile, hseek⟩, hget⟩
  refine ⟨db, ⟨_, _, _, hrun, rfl⟩, ?_, hget⟩
  intro _ content' hfile'
  rw [hfile] at hfile'
  cases hfile'
  exact hseek

theorem tiers_agree_iff_deleted : ∃ db₁ db₂ answer₁ answer₂,
    Reading plainHost plainFormat (ascii "aa") [] db₁ [] answer₁ ∧
      Reading plainHost plainFormat (ascii "aa") [] db₂ [] answer₂ ∧
      (answer₁ = answer₂ ↔ SameAnswer plainHost (ascii "aa") [] db₁ [] db₂ []) := by
  rcases deleted_in_memTable with ⟨db₁, h₁⟩
  rcases deleted_in_table with ⟨db₂, h₂⟩
  exact ⟨db₁, db₂, _, _, h₁, h₂, tiers_agree_iff h₁ h₂⟩

/-- A deleted key is found or not, depending on where its tombstone is. -/
theorem tiers_disagree : ∃ db₁ db₂ answer₁ answer₂,
    Reading plainHost plainFormat (ascii "aa") [] db₁ [] answer₁ ∧
      Reading plainHost plainFormat (ascii "aa") [] db₂ [] answer₂ ∧ answer₁ ≠ answer₂ := by
  rcases deleted_in_memTable with ⟨db₁, h₁⟩
  rcases deleted_in_table with ⟨db₂, h₂⟩
  exact ⟨db₁, db₂, _, _, h₁, h₂, by decide⟩

end Smallkv
