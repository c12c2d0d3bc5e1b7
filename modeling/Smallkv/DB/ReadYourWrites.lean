import Smallkv.DB.Frame
import Smallkv.DB.ReadPath
import Smallkv.Table.SSTParser

/-!
# DB.ReadYourWrites — the database as its clients see it

With the tables of the code a `Get` is answered by cache or memtable or not at
all, since no table is ever parsed. As long as no `Put` finds another value of
its key in the cache, both tiers know nothing but last writes (`Knows`), and
what they answer is right.
-/

namespace Smallkv

open Fallible Assoc

namespace DBImpl

/-- How the absence of a key is reported. -/
def ReportsAbsence (status : DBStatus) (out : Bytes) : Prop :=
  status = Status.notFound ∨ (status = Status.success ∧ out = [])

/-- The right answer for a key, given the last value written for it. A deletion
is a write of the empty value. -/
def RightAnswer (last : Option Bytes) (status : DBStatus) (out : Bytes) : Prop :=
  match last with
  | some v => if v = [] then ReportsAbsence status out else status = Status.success ∧ out = v
  | none => ReportsAbsence status out

/-- A `Get` behind these calls does not abort and answers with the last write. -/
def ReadsOwnWrites (host : Host) (sst : SstFormat) (db : DBImpl) (ops : List Op) (key : Bytes) :
    Prop :=
  ∃ status out, db.answer host sst key = .ok (status, out) ∧
    RightAnswer (lastWrite (writes ops) key) status out

/-- No `Put` finds another value of its key in the cache, and every `Get` finds
its key in the cache or in the memtable. -/
def StaysInTiers (host : Host) (db : DBImpl) : Op → Prop
  | .write w => PutAgrees host db (.write w)
  | .get key => db.tierAnswer host key ≠ .ok none

variable {host : Host} {sst : SstFormat} {options : Options} {db db' : DBImpl}
  {mem cached : Bytes → Option Bytes}

/-! ## The tiers know last writes only -/

/-- What memtable and cache know is what was written last. -/
structure Knows (ws : List Write) (mem cached : Bytes → Option Bytes) : Prop where
  memTable : Submap mem (lastWrite ws)
  cache : Submap cached (lastWrite ws)

theorem Knows.write {ws : List Write} (h : Knows ws mem cached) {w : Write} (hfree : w.NulFree)
    {cap : ℕ} {cached' : Bytes → Option Bytes} (hcache : CacheAfter cap cached cached' w)
    (hagrees : ∀ flips key value, w = .put flips key value →
      cached (cString key) = none ∨ cached (cString key) = some (cString value)) :
    Knows (ws ++ [w]) (Function.update mem (cString w.key) (some (cString w.value))) cached' := by
  have hkey := cString_eq_self hfree.1
  have hvalue := cString_eq_self hfree.2
  constructor
  · rw [hkey, hvalue, lastWrite_update]
    exact h.memTable.update w.key w.value
  · intro k u hu
    rw [lastWrite_update, Function.update_apply]
    split
    · rename_i heq
      have hself := hcache.self hagrees (u := u) (by rw [hkey, ← heq, hu])
      rw [hself, hvalue]
    · rename_i hne
      exact h.cache k u (hcache.other (by rwa [hkey]) hu)

theorem step_knows {ops : List Op} (h : Tracks host db mem cached)
    (hknows : Knows (writes ops) mem cached) {op : Op}
    (hfree : ∀ w ∈ writes (ops ++ [op]), w.NulFree) (hstays : StaysInTiers host db op)
    (hrun : db.step host sst op = .ok db') :
    ∃ mem' cached', Tracks host db' mem' cached' ∧ Knows (writes (ops ++ [op])) mem' cached' := by
  cases op with
  | write w =>
      rw [writes_concat_write] at hfree ⊢
      rcases write_cases h hrun with ⟨db₁, cached₁, -, h₁, hcache, -, hflush⟩
      have hknows₁ := hknows.write (hfree w (by simp)) hcache (PutAgrees.finds h hstays)
      rcases hflush with ⟨-, rfl⟩ | ⟨-, f, hf, hnew⟩
      · exact ⟨_, cached₁, h₁, hknows₁⟩
      · exact ⟨_, cached₁, hf.tracks hnew h₁, submap_empty _, hknows₁.cache⟩
  | get key =>
      rw [writes_concat_get]
      rcases bind_eq_ok.1 hrun with ⟨⟨dbGet, status, out⟩, hget, hrun⟩
      cases hrun
      rcases get_cases h hget with ⟨-, ⟨h₁, -, -⟩ | ⟨hcached, hmem, -⟩⟩
      · exact ⟨mem, cached, h₁, hknows⟩
      · -- a key in the tiers is not looked up in the file
        exact absurd (by rw [tierAnswer_spec h, hcached, hmem]; rfl) hstays

theorem guardedRun_knows {disk : Disk} {ops : List Op} (hfree : ∀ w ∈ writes ops, w.NulFree)
    (hrun : GuardedRun (step host sst) (StaysInTiers host) (openDB options disk) ops db) :
    db.closed = false ∧ ∃ mem cached, Tracks host db mem cached ∧ Knows (writes ops) mem cached := by
  refine ⟨(run_flushLog hrun.run_eq).2.1, ?_⟩
  refine hrun.invariant (fun ops db => (∀ w ∈ writes ops, w.NulFree) → ∃ mem cached,
    Tracks host db mem cached ∧ Knows (writes ops) mem cached) ?_ ?_ hfree
  · intro _
    exact ⟨_, _, openDB_tracks host options disk, submap_empty _, submap_empty _⟩
  · intro ops db op db' hinv hstays hstep hfree'
    rcases hinv (forall_writes_of_concat hfree') with ⟨mem, cached, h, hknows⟩
    exact step_knows h hknows hfree' hstays hstep

/-- A key that is in neither tier is not answered: there is no file, or it is not
parsed. -/
theorem answer_ne_ok (fm : FloatMath) (h : Tracks host db mem cached) {key : Bytes}
    (htier : (cached (cString key)).or (mem (cString key)) = none) (a : DBStatus × Bytes) :
    db.answer host (sstFormat fm) key ≠ .ok a := by
  intro hanswer
  rcases bind_eq_ok.1 hanswer with ⟨⟨db', status, out⟩, hget, -⟩
  rcases get_cases h hget with ⟨-, ⟨-, -, hsome⟩ | ⟨-, -, content, -, hread⟩⟩
  · rw [htier] at hsome
    cases hsome
  · rcases hread with ⟨hseek, -⟩ | ⟨val, cached', hseek, -⟩
    · exact sstFormat_seek_ne_ok fm content key none hseek
    · exact sstFormat_seek_ne_ok fm content key (some val) hseek

end DBImpl

open DBImpl

/-- In every state that is reached by `Put`s which find no other value of their
key in the cache, by `Delete`s, and by `Get`s of keys in cache or memtable: a
`Get` reads what was written last exactly when its key is in cache or memtable. -/
theorem read_your_writes_iff (host : Host) (fm : FloatMath) (options : Options) (disk : Disk)
    {ops : List Op} (hfree : ∀ w ∈ writes ops, w.NulFree) {db : DBImpl}
    (hrun : GuardedRun (step host (sstFormat fm)) (StaysInTiers host) (openDB options disk) ops db)
    {key : Bytes} (hkey : 0 ∉ key) :
    ReadsOwnWrites host (sstFormat fm) db ops key ↔ StaysInTiers host db (.get key) := by
  rcases guardedRun_knows hfree hrun with ⟨hopen, mem, cached, h, hknows⟩
  have hanswer := tierAnswer_spec h key
  rw [StaysInTiers]
  cases htier : (cached (cString key)).or (mem (cString key)) with
  | none =>
      -- only a table could answer
      rw [htier] at hanswer
      constructor
      · rintro ⟨status, out, hget, -⟩
        exact absurd hget (answer_ne_ok fm h htier (status, out))
      · intro hstays
        exact absurd hanswer hstays
  | some v =>
      -- whichever tier answers, it knows the last write
      rw [htier] at hanswer
      have hlast : lastWrite (writes ops) key = some v := by
        rw [cString_eq_self hkey] at htier
        rcases Option.or_eq_some_iff.1 htier with hc | ⟨-, hm⟩
        · exact hknows.cache key v hc
        · exact hknows.memTable key v hm
      constructor
      · intro _
        rw [hanswer]
        simp
      · intro _
        refine ⟨Status.success, v, answer_of_tiers h hopen htier, ?_⟩
        rw [hlast, RightAnswer]
        split
        · rename_i hempty
          exact Or.inr ⟨rfl, hempty⟩
        · exact ⟨rfl, rfl⟩

/-- A pair is read back from the cache. -/
theorem read_your_writes_iff_put :
    ∃ db, GuardedRun (step plainHost (sstFormat decimalMath)) (StaysInTiers plainHost)
        (openDB Options.default Disk.empty) [.write (.put [] (ascii "a") (ascii "x"))] db ∧
      (ReadsOwnWrites plainHost (sstFormat decimalMath) db
          [.write (.put [] (ascii "a") (ascii "x"))] (ascii "a") ↔
        StaysInTiers plainHost db (.get (ascii "a"))) := by
  have hstays : StaysInTiers plainHost (openDB Options.default Disk.empty)
      (.write (.put [] (ascii "a") (ascii "x"))) := Or.inl rfl
  exact ⟨_, .single hstays rfl, read_your_writes_iff plainHost decimalMath Options.default
    Disk.empty (by decide) (.single hstays rfl) (by decide)⟩

/-- The second of two `Put`s of one key is not read back: the cache keeps the
first. -/
theorem second_put_not_read :
    ∃ db, run (step plainHost (sstFormat decimalMath)) (openDB Options.default Disk.empty)
        [.write (.put [] (ascii "a") (ascii "x")), .write (.put [] (ascii "a") (ascii "y"))] = .ok db ∧
      ¬ ReadsOwnWrites plainHost (sstFormat decimalMath) db
        [.write (.put [] (ascii "a") (ascii "x")), .write (.put [] (ascii "a") (ascii "y"))]
        (ascii "a") := by
  refine ⟨_, rfl, ?_⟩
  rintro ⟨status, out, hanswer, hright⟩
  have hout : (Status.success, ascii "x") = (status, out) := Except.ok.inj hanswer
  cases hout
  exact absurd hright.2 (by decide)

end Smallkv
