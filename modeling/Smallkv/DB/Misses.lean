import Smallkv.DB.Determined
import Smallkv.DB.ReadYourWrites

/-!
# DB.Misses — what a `Get` can answer from

With the tables of this database a `Get` that has to look into one does not
return, for `Parse` faults on every file. So `Get` never says `NotFound`, never
finds what was written before the last start, and answers from the cache or from
the memtable or not at all, whatever was called before (`gets_never_miss`).
-/

namespace Smallkv

open Fallible Assoc

namespace DBImpl

variable {host : Host} {fm : FloatMath} {options : Options} {db db' : DBImpl}
  {mem cached : Bytes → Option Bytes}

/-! ## The writes since the last start -/

def Event.sinceStart (ws : List Write) : Event → List Write
  | .call (.op (.write w)) => ws ++ [w]
  | .call _ => ws
  | .restart _ => []

def sessionWrites (events : List Event) : List Write := events.foldl Event.sinceStart []

theorem sessionWrites_concat (events : List Event) (e : Event) :
    sessionWrites (events ++ [e]) = e.sinceStart (sessionWrites events) := by
  simp [sessionWrites]

/-- The last write of the key is a `Delete`. -/
def Deleted (ws : List Write) (k : Bytes) : Prop :=
  ∃ ws₁ flips key ws₂, ws = ws₁ ++ .delete flips key :: ws₂ ∧ cString key = k ∧
    ∀ w ∈ ws₂, cString w.key ≠ k

theorem not_deleted_nil (k : Bytes) : ¬ Deleted [] k := by
  rintro ⟨ws₁, flips, key, ws₂, hws, -⟩
  simp at hws

theorem deleted_concat {ws : List Write} {w : Write} {k : Bytes} (h : Deleted (ws ++ [w]) k) :
    (∃ flips key, w = .delete flips key ∧ cString key = k) ∨
      cString w.key ≠ k ∧ Deleted ws k := by
  rcases h with ⟨ws₁, flips, key, ws₂, hws, hkey, hlater⟩
  rcases List.eq_nil_or_concat ws₂ with rfl | ⟨ws₃, w', rfl⟩
  · rcases List.append_inj' hws rfl with ⟨-, hw⟩
    exact Or.inl ⟨flips, key, List.head_eq_of_cons_eq hw, hkey⟩
  · rw [List.concat_eq_append] at hws hlater
    rw [← List.cons_append, ← List.append_assoc] at hws
    rcases List.append_inj' hws rfl with ⟨hws', hw⟩
    obtain rfl := List.head_eq_of_cons_eq hw
    exact Or.inr ⟨hlater w (by simp), ws₁, flips, key, ws₃, hws', hkey,
      fun u hu => hlater u (by simp [hu])⟩

theorem Deleted.lastStored {ws : List Write} {k : Bytes} (h : Deleted ws k) :
    lastStored ws k = some [] := by
  induction ws using List.reverseRecOn with
  | nil => exact absurd h (not_deleted_nil k)
  | append_singleton ws w ih =>
      rw [lastStored_concat, Function.update_apply]
      rcases deleted_concat h with ⟨flips, key, rfl, hkey⟩ | ⟨hne, hdeleted⟩
      · simp only [Write.key, Write.value, hkey, if_true]
        rfl
      · rw [if_neg hne.symm]
        exact ih hdeleted

/-- What memtable and cache know comes from these writes: the memtable knows the
last ones, and the cache no key that was deleted last. -/
structure ComesFrom (ws : List Write) (mem cached : Bytes → Option Bytes) : Prop where
  memTable : ∀ k v, mem k = some v → lastStored ws k = some v
  cache : ∀ k v, cached k = some v → ∃ w ∈ ws, cString w.key = k ∧ cString w.value = v
  deleted : ∀ k, Deleted ws k → cached k = none

theorem comesFrom_nil : ComesFrom [] (fun _ => none) fun _ => none where
  memTable := by simp
  cache := by simp
  deleted := fun _ _ => rfl

theorem ComesFrom.write {ws : List Write} (h : ComesFrom ws mem cached) {w : Write} {cap : ℕ}
    {cached' : Bytes → Option Bytes} (hcache : CacheAfter cap cached cached' w) :
    ComesFrom (ws ++ [w]) (Function.update mem (cString w.key) (some (cString w.value))) cached' := by
  have hold : ∀ k v, cached k = some v →
      ∃ u ∈ ws ++ [w], cString u.key = k ∧ cString u.value = v := by
    intro k v hk
    rcases h.cache k v hk with ⟨u, hu, hrest⟩
    exact ⟨u, List.mem_append_left _ hu, hrest⟩
  refine ⟨?_, ?_, ?_⟩
  · intro k v hk
    rw [lastStored_concat]
    rw [Function.update_apply] at hk ⊢
    split at hk
    · rename_i heq
      rw [if_pos heq, hk]
    · rename_i hne
      rw [if_neg hne]
      exact h.memTable k v hk
  · intro k v hk
    cases w with
    | put flips key value =>
        have hins : CacheInsert cap (cString key) (cString value) cached cached' := hcache
        have hval := hins.submap k v hk
        rw [insertMap, Function.update_apply] at hval
        split at hval
        · rename_i heq
          rcases Option.or_eq_some_iff.1 hval with hkept | ⟨-, hnew⟩
          · exact hold k v (heq ▸ hkept)
          · exact ⟨.put flips key value, by simp, heq.symm, Option.some.inj hnew⟩
        · exact hold k v hval
    | delete flips key =>
        have herase : cached' = Function.update cached (cString key) none := hcache
        rw [herase, Function.update_apply] at hk
        split at hk
        · cases hk
        · exact hold k v hk
  · intro k hk
    rcases deleted_concat hk with ⟨flips, key, rfl, hkey⟩ | ⟨hne, hdeleted⟩
    · have herase : cached' = Function.update cached (cString key) none := hcache
      rw [herase, hkey, Function.update_self]
    · have hnone := h.deleted k hdeleted
      cases hcached' : cached' k with
      | none => rfl
      | some v =>
          rw [hcache.other hne.symm hcached'] at hnone
          cases hnone

/-! ## Calls, closings and starts -/

/-- No table answers. -/
theorem get_from_tiers (h : Tracks host db mem cached) {key out out' : Bytes} {status : DBStatus}
    (hget : db.get host (sstFormat fm) key out = .ok (db', status, out')) :
    Tracks host db' mem cached ∧ status = Status.success ∧
      (cached (cString key)).or (mem (cString key)) = some out' := by
  rcases get_cases h hget with ⟨-, hanswer | ⟨-, -, content, -, hread⟩⟩
  · exact hanswer
  · rcases hread with ⟨hseek, -⟩ | ⟨val, cached', hseek, -⟩
    · exact absurd hseek (sstFormat_seek_ne_ok fm content key none)
    · exact absurd hseek (sstFormat_seek_ne_ok fm content key (some val))

/-- So a `Get` returns exactly if one of the first two tiers has its key. -/
theorem Tracks.get_returns_iff (h : Tracks host db mem cached) (key out : Bytes) :
    (∃ r, db.get host (sstFormat fm) key out = .ok r) ↔ db.closed = false ∧
      (db.cache.contains host.hash (cString key) = true ∨ db.memTable.contains key = .ok true) := by
  rw [h.cache.contains, h.memTable.contains, Except.ok.injEq]
  constructor
  · rintro ⟨⟨db', status, out'⟩, hget⟩
    have hopen : db.closed = false := by
      rcases bind_eq_ok.1 hget with ⟨_, hcheck, -⟩
      exact require_eq_ok.1 hcheck
    rcases get_from_tiers h hget with ⟨-, -, htier⟩
    refine ⟨hopen, ?_⟩
    rcases Option.or_eq_some_iff.1 htier with hc | ⟨-, hm⟩
    · exact Or.inl (by rw [hc]; rfl)
    · exact Or.inr (by rw [hm]; rfl)
  · rintro ⟨hopen, htier⟩
    have hsome : ∃ v, (cached (cString key)).or (mem (cString key)) = some v := by
      rw [← Option.isSome_iff_exists, Option.isSome_or, Bool.or_eq_true]
      exact htier
    rcases hsome with ⟨v, hv⟩
    rcases getTiers_spec h key with ⟨db₁, htiers, -⟩
    rw [hv] at htiers
    exact ⟨_, by simp only [DBImpl.get, require_of hopen, ok_bind, htiers]; rfl⟩

/-- A database that was closed is of no use until the next start; an open one has
everything from the writes since the last one. -/
def Sourced (host : Host) (db : DBImpl) (ws : List Write) : Prop :=
  db.closed = true ∨ ∃ mem cached, Tracks host db mem cached ∧ ComesFrom ws mem cached

theorem event_sourced {ws : List Write} (h : Sourced host db ws) {e : Event}
    (hrun : event host (sstFormat fm) options db e = .ok db') :
    Sourced host db' (e.sinceStart ws) := by
  cases e with
  | restart cacheSize =>
      cases hrun
      exact Or.inr ⟨_, _, openDB_tracks host _ db.disk, comesFrom_nil⟩
  | call c =>
      rcases h with hclosed | ⟨mem, cached, h, hfrom⟩
      · -- only another `Close` returns
        cases c with
        | op op =>
            have hrun' : db.step host (sstFormat fm) op = .ok db' := hrun
            rw [step_of_closed hclosed op] at hrun'
            cases hrun'
        | close =>
            rcases bind_eq_ok.1 hrun with ⟨⟨db₁, status⟩, hclose, hrun⟩
            rw [close_of_closed hclosed] at hclose
            cases hclose
            cases hrun
            exact Or.inl hclosed
      · cases c with
        | close =>
            rcases bind_eq_ok.1 hrun with ⟨⟨db₁, status⟩, hclose, hrun⟩
            cases hrun
            rcases close_cases h hclose with ⟨rfl, -⟩ | ⟨-, db₂, f, -, rfl⟩
            · exact Or.inr ⟨mem, cached, h, hfrom⟩
            · exact Or.inl rfl
        | op op =>
            cases op with
            | write w =>
                rcases write_cases h hrun with ⟨db₁, cached₁, -, h₁, hcache, -, hflush⟩
                have hfrom₁ := hfrom.write hcache
                rcases hflush with ⟨-, rfl⟩ | ⟨-, f, hf, hnew⟩
                · exact Or.inr ⟨_, cached₁, h₁, hfrom₁⟩
                · exact Or.inr ⟨_, cached₁, hf.tracks hnew h₁,
                    ⟨by simp, hfrom₁.cache, hfrom₁.deleted⟩⟩
            | get key =>
                rcases bind_eq_ok.1 hrun with ⟨⟨db₁, status, out⟩, hget, hrun⟩
                cases hrun
                exact Or.inr ⟨mem, cached, (get_from_tiers h hget).1, hfrom⟩

end DBImpl

open DBImpl

/-- Whatever is called, closed and started again: a `Get` returns exactly if its key
is in the cache or in the memtable of an open database. Then it says `Success`,
with a value that was written for the key since the last start: the last one if
the cache has none, and the empty one if the key was deleted last. -/
theorem gets_never_miss (host : Host) (fm : FloatMath) (options : Options) (disk : Disk)
    (events : List Event) {db : DBImpl}
    (hrun : run (event host (sstFormat fm) options) (openDB options disk) events = .ok db)
    (key out : Bytes) :
    ((∃ r, db.get host (sstFormat fm) key out = .ok r) ↔ db.closed = false ∧
      (db.cache.contains host.hash (cString key) = true ∨ db.memTable.contains key = .ok true)) ∧
    ∀ db' status out', db.get host (sstFormat fm) key out = .ok (db', status, out') →
      status = Status.success ∧
      (∃ w ∈ sessionWrites events, cString w.key = cString key ∧ cString w.value = out') ∧
      (db.cache.contains host.hash (cString key) = false →
        lastStored (sessionWrites events) (cString key) = some out') ∧
      (Deleted (sessionWrites events) (cString key) → out' = []) := by
  have hsourced : Sourced host db (sessionWrites events) := by
    refine run_history_invariant (fun events db => Sourced host db (sessionWrites events))
      (Or.inr ⟨_, _, openDB_tracks host options disk, comesFrom_nil⟩) ?_ hrun
    intro events db e db' h hevent
    rw [sessionWrites_concat]
    exact event_sourced h hevent
  rcases hsourced with hclosed | ⟨mem, cached, h, hfrom⟩
  · -- the first check of `Get` fails
    have hrefused : ∀ r, db.get host (sstFormat fm) key out ≠ .ok r := by
      intro r hget
      rcases bind_eq_ok.1 hget with ⟨_, hcheck, -⟩
      rw [require_eq_ok.1 hcheck] at hclosed
      cases hclosed
    constructor
    · refine iff_of_false ?_ (by simp [hclosed])
      rintro ⟨r, hget⟩
      exact hrefused r hget
    · intro db' status out' hget
      exact absurd hget (hrefused _)
  · constructor
    · exact h.get_returns_iff key out
    · intro db' status out' hget
      rcases get_from_tiers h hget with ⟨-, hstatus, htier⟩
      have hmissing : cached (cString key) = none →
          lastStored (sessionWrites events) (cString key) = some out' := by
        intro hnone
        rw [hnone, Option.none_or] at htier
        exact hfrom.memTable _ _ htier
      refine ⟨hstatus, ?_, ?_, ?_⟩
      · rcases Option.or_eq_some_iff.1 htier with hc | ⟨-, hm⟩
        · exact hfrom.cache _ _ hc
        · exact mem_of_lastStored (hfrom.memTable _ _ hm)
      · intro hcontains
        rw [h.cache.contains, Option.isSome_eq_false_iff, Option.isNone_iff_eq_none] at hcontains
        exact hmissing hcontains
      · intro hdeleted
        have hlast := hmissing (hfrom.deleted _ hdeleted)
        rw [hdeleted.lastStored] at hlast
        exact (Option.some.inj hlast).symm

/-- A pair of the session before, one that is deleted, and one that is asked for. -/
def startsAgain : List Event :=
  [.call (.op (.write (.put [] (ascii "a") (ascii "1")))), .call .close, .restart 4,
    .call (.op (.write (.put [] (ascii "b") (ascii "2")))),
    .call (.op (.write (.delete [] (ascii "b"))))]

theorem gets_never_miss_again :
    ∃ db, run (event plainHost (sstFormat decimalMath) Options.default)
        (openDB Options.default Disk.empty) startsAgain = .ok db ∧
      ((∃ r, db.get plainHost (sstFormat decimalMath) (ascii "b") (ascii "old") = .ok r) ↔
        db.closed = false ∧
          (db.cache.contains plainHost.hash (cString (ascii "b")) = true ∨
            db.memTable.contains (ascii "b") = .ok true)) ∧
      ∀ db' status out',
        db.get plainHost (sstFormat decimalMath) (ascii "b") (ascii "old") = .ok (db', status, out') →
        status = Status.success ∧
        (∃ w ∈ sessionWrites startsAgain, cString w.key = cString (ascii "b") ∧
          cString w.value = out') ∧
        (db.cache.contains plainHost.hash (cString (ascii "b")) = false →
          lastStored (sessionWrites startsAgain) (cString (ascii "b")) = some out') ∧
        (Deleted (sessionWrites startsAgain) (cString (ascii "b")) → out' = []) :=
  ⟨_, rfl, gets_never_miss plainHost decimalMath Options.default Disk.empty startsAgain rfl
    (ascii "b") (ascii "old")⟩

end Smallkv
