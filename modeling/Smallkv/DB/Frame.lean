import Smallkv.DB.CacheUse
import Smallkv.DB.FlushTest

/-!
# DB.Frame — what a write does to other keys

The first two tiers answer for the C string of a key, and the cache never
overwrites. So two keys do not disturb each other as long as their C strings
differ and no `Put` finds another value of its key in the cache: then cache and
memtable agree wherever both know a key (`Coherent`), and it does not matter
which of them answers. A write takes the answer for another key away where it
flushes the memtable or the cache gives the key up, and the other tier does not
have it (`KeptInTiers`).
-/

namespace Smallkv

open Fallible Assoc SkipList

namespace DBImpl

/-! ## Looking into the tiers -/

/-- What the first two tiers of `Get` answer. -/
def tierAnswer (host : Host) (db : DBImpl) (key : Bytes) : Exec (Option Bytes) := do
  let (_, val) ← db.getTiers host key
  pure val

/-- What the cache has for a key. -/
def cachedValue (host : Host) (db : DBImpl) (key : Bytes) : Exec (Option Bytes) := do
  if db.cache.contains host.hash (cString key) then do
    let (cache, node) ← db.cache.get host.hash (cString key)
    let node ← orFail .badAccess node
    let val ← cache.valueAt host.hash (cString key) node
    pure (some val)
  else pure none

/-- A `Put` does not find another value of its key in the cache. -/
def PutAgrees (host : Host) (db : DBImpl) : Op → Prop
  | .write (.put _ key value) =>
    db.cachedValue host key = .ok none ∨ db.cachedValue host key = .ok (some (cString value))
  | _ => True

/-- The write is going to fill the memtable: the pairs that it has then are at its
limit. -/
def FillsMemTable (db : DBImpl) (w : Write) : Prop :=
  ∃ held, db.memTable.entries = .ok held ∧
    db.options.memTableMaxSize ≤ asSizeT (bytesOf (heldAfter held w))

/-- The cache is going to give the key up for the one that is written. -/
def GivesUp (host : Host) (db : DBImpl) (key : Bytes) : Write → Prop
  | .put _ k _ => db.cache.Evicts host.hash (cString k) (cString key)
  | .delete _ _ => False

/-- A tier that answers for the key goes on to do so, or none does. -/
inductive KeptInTiers (host : Host) (db : DBImpl) (w : Write) (key : Bytes) : Prop
  | cached (hcached : db.cache.contains host.hash (cString key) = true)
      (hkept : ¬ GivesUp host db key w)
  | held (hheld : db.memTable.contains key = .ok true) (hroom : ¬ FillsMemTable db w)
  | absent (hcached : db.cache.contains host.hash (cString key) = false)
      (hheld : db.memTable.contains key = .ok false)

/-- What is promised of a write and another key: the answer for the key is what it
was, and a value that is put is read back. -/
structure NoInterference (host : Host) (db db' : DBImpl) (w : Write) (key : Bytes) : Prop where
  other : db'.tierAnswer host key = db.tierAnswer host key
  readBack : ∀ flips k v, w = .put flips k v → db'.tierAnswer host k = .ok (some v)

/-- The tiers have room for it: the other key stays in them, and one that is put finds
a place in the cache or in the memtable. -/
structure HasRoom (host : Host) (db : DBImpl) (w : Write) (key : Bytes) : Prop where
  other : KeptInTiers host db w key
  own : ∀ flips k v, w = .put flips k v → 0 < db.options.cacheSize ∨ ¬ FillsMemTable db w

variable {host : Host} {sst : SstFormat} {options : Options} {db db' : DBImpl}
  {mem cached : Bytes → Option Bytes}

theorem tierAnswer_spec (h : Tracks host db mem cached) (key : Bytes) :
    db.tierAnswer host key = .ok ((cached (cString key)).or (mem (cString key))) := by
  rcases getTiers_spec h key with ⟨db₁, hrun, -⟩
  simp only [tierAnswer, hrun, ok_bind, pure_eq_ok]

theorem cachedValue_spec (h : Tracks host db mem cached) (key : Bytes) :
    db.cachedValue host key = .ok (cached (cString key)) := by
  cases hkey : cached (cString key) with
  | none => simp [cachedValue, h.cache.contains, hkey]
  | some v =>
      rcases h.cache.get hkey with ⟨c, node, hget, hval, -⟩
      simp [cachedValue, h.cache.contains, hkey, hget, hval]

/-- What a `Put` that agrees finds in the cache. -/
theorem PutAgrees.finds (h : Tracks host db mem cached) {w : Write}
    (hagrees : PutAgrees host db (.write w)) (flips : List Bool) (key value : Bytes)
    (hw : w = .put flips key value) :
    cached (cString key) = none ∨ cached (cString key) = some (cString value) := by
  subst hw
  rw [PutAgrees, cachedValue_spec h] at hagrees
  simpa using hagrees

/-! ## Cache and memtable agree -/

/-- Where both know a key they have the same value for it. -/
def Coherent (mem cached : Bytes → Option Bytes) : Prop :=
  ∀ k u v, cached k = some u → mem k = some v → u = v

/-- Of other keys a write teaches the cache nothing. -/
theorem CacheAfter.other {cap : ℕ} {cached' : Bytes → Option Bytes} {w : Write}
    (h : CacheAfter cap cached cached' w) {k u : Bytes} (hne : k ≠ cString w.key)
    (hk : cached' k = some u) : cached k = some u := by
  cases w with
  | put flips key value =>
      have hsub := h.submap k u hk
      have hkey : k ≠ cString key := hne
      rwa [insertMap, Function.update_of_ne hkey] at hsub
  | delete flips key =>
      have hkey : k ≠ cString key := hne
      rw [CacheAfter] at h
      rwa [h, Function.update_of_ne hkey] at hk

/-- Of its own key it leaves the last value or nothing, if the cache agreed. -/
theorem CacheAfter.self {cap : ℕ} {cached' : Bytes → Option Bytes} {w : Write}
    (h : CacheAfter cap cached cached' w)
    (hagrees : ∀ flips key value, w = .put flips key value →
      cached (cString key) = none ∨ cached (cString key) = some (cString value))
    {u : Bytes} (hk : cached' (cString w.key) = some u) : u = cString w.value := by
  cases w with
  | put flips key value =>
      have hsub := h.submap (cString key) u hk
      rcases hagrees flips key value rfl with hnone | hsome
      · rw [insertMap_of_none hnone, Function.update_self] at hsub
        exact (Option.some.inj hsub).symm
      · rw [insertMap_of_some hsome, hsome] at hsub
        exact (Option.some.inj hsub).symm
  | delete flips key =>
      rw [CacheAfter] at h
      rw [h, Write.key, Function.update_self] at hk
      cases hk

theorem Coherent.write {cap : ℕ} {cached' : Bytes → Option Bytes} {w : Write}
    (h : Coherent mem cached) (hcache : CacheAfter cap cached cached' w)
    (hagrees : ∀ flips key value, w = .put flips key value →
      cached (cString key) = none ∨ cached (cString key) = some (cString value)) :
    Coherent (Function.update mem (cString w.key) (some (cString w.value))) cached' := by
  intro k u v hu hv
  by_cases hk : k = cString w.key
  · subst hk
    rw [Function.update_self] at hv
    rw [hcache.self hagrees hu]
    exact Option.some.inj hv
  · rw [Function.update_of_ne hk] at hv
    exact h k u v (hcache.other hk hu) hv

/-- An empty memtable agrees with everything. -/
theorem coherent_empty (cached : Bytes → Option Bytes) : Coherent (fun _ => none) cached := by
  intro k u v _ hv
  cases hv

theorem step_coherent (h : Tracks host db mem cached) (hcoherent : Coherent mem cached) {op : Op}
    (hagrees : PutAgrees host db op) (hrun : db.step host sst op = .ok db') :
    ∃ mem' cached', Tracks host db' mem' cached' ∧ Coherent mem' cached' := by
  cases op with
  | write w =>
      rcases write_cases h hrun with ⟨db₁, cached₁, -, h₁, hcache, -, hflush⟩
      have hcoherent₁ := hcoherent.write hcache (PutAgrees.finds h hagrees)
      rcases hflush with ⟨-, rfl⟩ | ⟨-, f, hf, hnew⟩
      · exact ⟨_, cached₁, h₁, hcoherent₁⟩
      · exact ⟨_, cached₁, hf.tracks hnew h₁, coherent_empty cached₁⟩
  | get key =>
      rcases bind_eq_ok.1 hrun with ⟨⟨dbGet, status, out⟩, hget, hrun⟩
      cases hrun
      rcases get_cases h hget with ⟨-, ⟨h₁, -, -⟩ | ⟨-, hmem, content, -, hread⟩⟩
      · exact ⟨mem, cached, h₁, hcoherent⟩
      · rcases hread with ⟨-, h₁, -, -⟩ | ⟨val, cached₁, -, h₁, hins, -, -⟩
        · exact ⟨mem, cached, h₁, hcoherent⟩
        · -- what was read from a table is not in the memtable
          refine ⟨mem, cached₁, h₁, ?_⟩
          intro k u v hu hv
          have hk : k ≠ cString key := by
            rintro rfl
            rw [hmem] at hv
            cases hv
          have hsub := hins.submap k u hu
          rw [insertMap, Function.update_of_ne hk] at hsub
          exact hcoherent k u v hsub hv

theorem guardedRun_coherent {disk : Disk} {ops : List Op}
    (hrun : GuardedRun (step host sst) (PutAgrees host) (openDB options disk) ops db) :
    ∃ mem cached, Tracks host db mem cached ∧ Coherent mem cached := by
  refine hrun.invariant (fun _ db => ∃ mem cached, Tracks host db mem cached ∧
    Coherent mem cached) ?_ ?_
  · exact ⟨_, _, openDB_tracks host options disk, coherent_empty _⟩
  · rintro ops db op db' ⟨mem, cached, h, hcoherent⟩ hagrees hstep
    exact step_coherent h hcoherent hagrees hstep

/-! ## What a write takes away -/

/-- The pairs of the memtable and the write tell whether there is going to be a flush. -/
theorem full_iff_fills (h : Tracks host db mem cached) {db₁ : DBImpl} {cached₁ : Bytes → Option Bytes}
    {w : Write}
    (h₁ : Tracks host db₁ (Function.update mem (cString w.key) (some (cString w.value))) cached₁)
    (hsame : SameTables db db₁) : db₁.Full ↔ FillsMemTable db w := by
  rcases h.memTable.entries with ⟨held, hentries, hsorted, hmap, -⟩
  have husage : db₁.memTable.getMemUsage = bytesOf (heldAfter held w) := by
    rw [← hmap, ← toMap_heldAfter] at h₁
    exact (SkipList.Represents.counted (heldAfter_nodup (nodup_keys_of_sorted hsorted) w)
      h₁.memTable).2.2
  rw [Full, husage, hsame.options]
  constructor
  · intro hfull
    exact ⟨held, hentries, hfull⟩
  · rintro ⟨held', hentries', hfull⟩
    obtain rfl : held = held' := Except.ok.inj (hentries.symm.trans hentries')
    exact hfull

/-- A key that the cache has is there afterwards unless it is given up. -/
theorem cached_after_iff (hstocked : db.cache.Stocked) (h : Tracks host db mem cached)
    {mem' cached' : Bytes → Option Bytes} (h' : Tracks host db' mem' cached') {w : Write}
    (hrun : db.write host sst w = .ok db') {cap : ℕ} (hcache : CacheAfter cap cached cached' w)
    {key : Bytes} (hne : cString key ≠ cString w.key) (hkey : (cached (cString key)).isSome = true) :
    (cached' (cString key)).isSome = true ↔ ¬ GivesUp host db key w := by
  cases w with
  | put flips k v =>
      rw [← h.cache.contains] at hkey
      rw [← h'.cache.contains, Cache.insert_contains_iff hstocked (write_cache hrun) hkey, GivesUp]
  | delete flips k =>
      rw [CacheAfter] at hcache
      have hkey' : cString key ≠ cString k := hne
      have hkeep : cached' (cString key) = cached (cString key) := by
        rw [hcache, Function.update_of_ne hkey']
      rw [hkeep]
      exact iff_of_true hkey not_false

/-- What a write makes of the answer for another key. -/
structure OtherAfter (mem cached mem' cached' : Bytes → Option Bytes) (givesUp fills : Prop)
    (k : Bytes) : Prop where
  cached_none : cached k = none → cached' k = none
  cached_some : ∀ u, cached k = some u → (¬ givesUp ∧ cached' k = some u) ∨
    (givesUp ∧ cached' k = none)
  mem_eq : (¬ fills ∧ mem' k = mem k) ∨ (fills ∧ mem' k = none)

theorem write_other (hstocked : db.cache.Stocked) (h : Tracks host db mem cached) {w : Write}
    (hrun : db.write host sst w = .ok db') {key : Bytes} (hne : cString key ≠ cString w.key) :
    ∃ mem' cached', Tracks host db' mem' cached' ∧
      OtherAfter mem cached mem' cached' (GivesUp host db key w) (FillsMemTable db w)
        (cString key) := by
  rcases write_cases h hrun with ⟨db₁, cached₁, -, h₁, hcache, hsame, hflush⟩
  have hfull := full_iff_fills h h₁ hsame
  have hmem : Function.update mem (cString w.key) (some (cString w.value)) (cString key) =
      mem (cString key) := Function.update_of_ne hne _ _
  have hafter : ∀ mem', Tracks host db' mem' cached₁ →
      (cached (cString key) = none → cached₁ (cString key) = none) ∧
      ∀ u, cached (cString key) = some u →
        (¬ GivesUp host db key w ∧ cached₁ (cString key) = some u) ∨
          (GivesUp host db key w ∧ cached₁ (cString key) = none) := by
    intro mem' h'
    constructor
    · intro hnone
      by_contra hsome
      rcases Option.ne_none_iff_exists'.1 hsome with ⟨u, hu⟩
      rw [hcache.other hne hu] at hnone
      cases hnone
    · intro u hu
      have hiff := cached_after_iff hstocked h h' hrun hcache hne (by rw [hu]; rfl)
      cases hval : cached₁ (cString key) with
      | none =>
          rw [hval] at hiff
          exact Or.inr ⟨by_contra fun hkept => by simpa using hiff.2 hkept, rfl⟩
      | some v =>
          rw [hval] at hiff
          rw [hcache.other hne hval] at hu
          exact Or.inl ⟨hiff.1 rfl, hu⟩
  rcases hflush with ⟨hnot, rfl⟩ | ⟨hyes, f, hf, hnew⟩
  · rcases hafter _ h₁ with ⟨hnone, hsome⟩
    exact ⟨_, cached₁, h₁, hnone, hsome, Or.inl ⟨mt hfull.2 hnot, hmem⟩⟩
  · have h' := hf.tracks hnew h₁
    rcases hafter _ h' with ⟨hnone, hsome⟩
    exact ⟨_, cached₁, h', hnone, hsome, Or.inr ⟨hfull.1 hyes, rfl⟩⟩

/-- The answer for the key stays, exactly if the tiers go on to have it. -/
theorem OtherAfter.answer_iff {mem' cached' : Bytes → Option Bytes} {givesUp fills : Prop}
    {k : Bytes} (h : OtherAfter mem cached mem' cached' givesUp fills k)
    (hcoherent : Coherent mem cached) :
    (cached' k).or (mem' k) = (cached k).or (mem k) ↔
      (cached k ≠ none ∧ ¬ givesUp) ∨ (mem k ≠ none ∧ ¬ fills) ∨ (cached k = none ∧ mem k = none) := by
  cases hc : cached k with
  | none =>
      rw [h.cached_none hc, Option.none_or, Option.none_or]
      rcases h.mem_eq with ⟨hroom, hm⟩ | ⟨hfills, hm⟩
      · rw [hm]
        cases mem k with
        | none => simp
        | some v => simp [hroom]
      · rw [hm]
        cases mem k with
        | none => simp
        | some v => simp [hfills]
  | some u =>
      rw [Option.some_or]
      rcases h.cached_some u hc with ⟨hkept, hc'⟩ | ⟨hgone, hc'⟩
      · rw [hc', Option.some_or]
        simp [hkept]
      · rw [hc', Option.none_or]
        rcases h.mem_eq with ⟨hroom, hm⟩ | ⟨hfills, hm⟩
        · rw [hm]
          cases hv : mem k with
          | none => simp [hgone]
          | some v =>
              -- the two tiers had the same value for the key
              rw [hcoherent k u v hc hv]
              simp [hroom]
        · rw [hm]
          simp [hgone, hfills]

theorem keptInTiers_iff (h : Tracks host db mem cached) (w : Write) (key : Bytes) :
    KeptInTiers host db w key ↔
      (cached (cString key) ≠ none ∧ ¬ GivesUp host db key w) ∨
        (mem (cString key) ≠ none ∧ ¬ FillsMemTable db w) ∨
          (cached (cString key) = none ∧ mem (cString key) = none) := by
  have hcached := h.cache.contains (cString key)
  have hheld := h.memTable.contains key
  constructor
  · rintro (⟨hin, hkept⟩ | ⟨hin, hroom⟩ | ⟨hout, hout'⟩)
    · exact Or.inl ⟨by simpa [hcached, Option.isSome_iff_ne_none] using hin, hkept⟩
    · exact Or.inr (Or.inl ⟨by simpa [hheld, Option.isSome_iff_ne_none] using hin, hroom⟩)
    · exact Or.inr (Or.inr ⟨by simpa [hcached] using hout, by simpa [hheld] using hout'⟩)
  · rintro (⟨hin, hkept⟩ | ⟨hin, hroom⟩ | ⟨hout, hout'⟩)
    · exact .cached (by simpa [hcached, Option.isSome_iff_ne_none] using hin) hkept
    · exact .held (by simpa [hheld, Option.isSome_iff_ne_none] using hin) hroom
    · exact .absent (by simpa [hcached] using hout) (by simpa [hheld] using hout')

theorem other_iff (hstocked : db.cache.Stocked) (h : Tracks host db mem cached)
    (hcoherent : Coherent mem cached) {w : Write} (hrun : db.write host sst w = .ok db')
    {key : Bytes} (hne : cString key ≠ cString w.key) :
    db'.tierAnswer host key = db.tierAnswer host key ↔ KeptInTiers host db w key := by
  rcases write_other hstocked h hrun hne with ⟨mem', cached', h', hafter⟩
  rw [tierAnswer_spec h, tierAnswer_spec h', Except.ok.injEq, keptInTiers_iff h]
  exact hafter.answer_iff hcoherent

/-! ## The key that is put -/

theorem readBack_iff (h : Tracks host db mem cached) {flips : List Bool} {key value : Bytes}
    (hagrees : PutAgrees host db (.write (.put flips key value))) (hfree : 0 ∉ value)
    (hrun : db.write host sst (.put flips key value) = .ok db') :
    db'.tierAnswer host key = .ok (some value) ↔
      0 < db.options.cacheSize ∨ ¬ FillsMemTable db (.put flips key value) := by
  rcases write_cases h hrun with ⟨db₁, cached₁, -, h₁, hcache, hsame, hflush⟩
  have hfull := full_iff_fills h h₁ hsame
  have hself : ∀ u, cached₁ (cString key) = some u → u = value := by
    intro u hu
    have hlast := hcache.self (PutAgrees.finds h hagrees) hu
    rwa [Write.value, cString_eq_self hfree] at hlast
  rcases hflush with ⟨hnot, rfl⟩ | ⟨hyes, f, hf, hnew⟩
  · refine iff_of_true ?_ (Or.inr (mt hfull.2 hnot))
    rw [tierAnswer_spec h₁ key]
    cases hafter : cached₁ (cString key) with
    | some u => rw [hself u hafter, Option.some_or]
    | none => rw [Option.none_or, Write.key, Function.update_self, Write.value, cString_eq_self hfree]
  · -- behind a flush there is the cache only
    have hfills := hfull.1 hyes
    rw [tierAnswer_spec (hf.tracks hnew h₁) key, Option.or_none, Except.ok.injEq]
    constructor
    · intro hval
      refine Or.inl (Nat.pos_of_ne_zero fun hzero => ?_)
      have hcap := h₁.cache
      rw [hsame.options, hzero] at hcap
      rw [hcap.eq_none] at hval
      cases hval
    · rintro (hpos | hroom)
      · rcases hcache with ⟨-, habsent, hpresent⟩
        cases hbefore : cached (cString key) with
        | none =>
            have hafter := habsent hbefore hpos
            rw [hafter, cString_eq_self hfree]
        | some u =>
            have hafter : cached₁ (cString key) = some u := by
              rw [hpresent (by rw [hbefore]; exact Option.some_ne_none u), hbefore]
            rw [hafter, hself u hafter]
      · exact absurd hfills hroom

end DBImpl

open DBImpl

/-- In every run whose `Put`s find no other value of their key in the cache, a write of
a NUL-free value does not disturb a key with another C string and is read back,
exactly if the tiers have room for both. -/
theorem no_interference (host : Host) (sst : SstFormat) (options : Options) (disk : Disk)
    {ops : List Op} {db db' : DBImpl}
    (hrun : GuardedRun (step host sst) (PutAgrees host) (openDB options disk) ops db) (w : Write)
    (hagrees : PutAgrees host db (.write w)) (hfree : 0 ∉ w.value)
    (hwrite : db.write host sst w = .ok db') {key : Bytes} (hne : cString key ≠ cString w.key) :
    NoInterference host db db' w key ↔ HasRoom host db w key := by
  rcases guardedRun_coherent hrun with ⟨mem, cached, h, hcoherent⟩
  have hother := other_iff (run_stocked hrun.run_eq) h hcoherent hwrite hne
  have hown : ∀ flips k v, w = .put flips k v → (db'.tierAnswer host k = .ok (some v) ↔
      0 < db.options.cacheSize ∨ ¬ FillsMemTable db w) := by
    rintro flips k v rfl
    exact readBack_iff h hagrees hfree hwrite
  constructor
  · intro hprop
    exact ⟨hother.1 hprop.other, fun flips k v hw => (hown flips k v hw).1 (hprop.readBack flips k v hw)⟩
  · intro hroom
    exact ⟨hother.2 hroom.other, fun flips k v hw => (hown flips k v hw).2 (hroom.own flips k v hw)⟩

/-- Two pairs side by side. -/
theorem no_interference_two :
    ∃ db db', GuardedRun (step plainHost plainFormat) (PutAgrees plainHost)
        (openDB Options.default Disk.empty) [.write (.put [] (ascii "a") (ascii "1"))] db ∧
      db.write plainHost plainFormat (.put [] (ascii "b") (ascii "2")) = .ok db' ∧
      NoInterference plainHost db db' (.put [] (ascii "b") (ascii "2")) (ascii "a") := by
  have hagrees : PutAgrees plainHost (openDB Options.default Disk.empty)
      (.write (.put [] (ascii "a") (ascii "1"))) := Or.inl rfl
  refine ⟨_, _, .single hagrees rfl, rfl, ?_⟩
  refine (no_interference plainHost plainFormat Options.default Disk.empty (.single hagrees rfl)
    (.put [] (ascii "b") (ascii "2")) (Or.inl rfl) (by decide) rfl (by decide)).2 ?_
  constructor
  · refine .cached rfl ?_
    rintro ⟨-, -, hvictim⟩
    exact absurd hvictim (by decide)
  · intro _ _ _ _
    exact Or.inl (by decide)

/-- Keys that differ behind a NUL only are one key to the tiers. -/
theorem nul_key_interferes :
    ∃ db', (openDB Options.default Disk.empty).write plainHost plainFormat
        (.put [] (ascii "a" ++ 0 :: ascii "b") (ascii "1")) = .ok db' ∧
      ¬ NoInterference plainHost (openDB Options.default Disk.empty) db'
        (.put [] (ascii "a" ++ 0 :: ascii "b") (ascii "1")) (ascii "a") := by
  refine ⟨_, rfl, ?_⟩
  intro h
  exact absurd h.other (by decide)

end Smallkv
