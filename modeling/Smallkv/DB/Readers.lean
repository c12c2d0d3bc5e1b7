import Smallkv.DB.CacheUse

/-!
# DB.Readers — `Get`s side by side

Any number of `Get`s run under the shared lock. No writer does, so memtable and
tables stand still, and all that a `Get` sees of another one are its calls on
the cache, each one atomic under the lock of its shard. A step of a `Get` is one
such call with what comes before the next; alone, the steps make up `get`
(`act_alone`). Between `contains` and `cache->get` the shard is unlocked, and a
value another `Get` brings back from a table may push the key out
(`readers_iff`).
-/

namespace Smallkv

open Fallible

namespace DBImpl

/-- How far a `Get` has come. -/
inductive Place where
  | start
  /-- `cache->contains` was true, `cache->get` is next -/
  | hit
  /-- `cache->get` has returned, the node is read next -/
  | got (node : Option Ptr)
  /-- `cache->contains` was false, memtable and table are next -/
  | missed
  /-- the table has the value, `cache->insert` is next -/
  | found (val : Bytes)
  | done (status : DBStatus) (out : Bytes)

/-- A `Get`, with the content of `*ret_value_ptr` when it was called. -/
structure Reader where
  key : Bytes
  out : Bytes
  place : Place

structure Readers (ι : Type) where
  db : DBImpl
  readers : ι → Reader

variable (host : Host) (sst : SstFormat)

/-- The next step of a `Get`. -/
def Reader.step (db : DBImpl) (r : Reader) : Exec (DBImpl × Place) :=
  match r.place with
  | .start => do
    require .assertion (db.closed = false)
    pure (db, if db.cache.contains host.hash (cString r.key) then .hit else .missed)
  | .hit => do
    let (cache, node) ← db.cache.get host.hash (cString r.key)
    pure ({ db with cache := cache }, .got node)
  | .got node => do
    let node ← orFail .badAccess node
    let val ← db.cache.valueAt host.hash (cString r.key) node
    pure (db, .done Status.success val)
  | .missed => do
    if ← db.memTable.contains r.key then do
      let _ ← db.memTable.get r.key
      let val ← db.memTable.get (cString r.key)
      let val ← orFail .exception val
      pure (db, .done Status.success val)
    else do
      let content ← orFail .assertion (db.files (resolve host.cwd (readPath db.options)))
      match ← sst.seek content r.key with
      | none => pure (db, .done Status.notFound r.out)
      | some val => pure (db, .found val)
  | .found val => do
    let cache ← db.cache.insert host.hash (cString r.key) val
    pure ({ db with cache := cache }, .done Status.success (r.out ++ val))
  | .done status out => pure (db, .done status out)

variable {ι : Type} [DecidableEq ι]

/-- The `Get` of a reader takes a step. -/
def act (s : Readers ι) (i : ι) : Exec (Readers ι) := do
  let (db, place) ← (s.readers i).step host sst s.db
  pure ⟨db, Function.update s.readers i { s.readers i with place := place }⟩

omit [DecidableEq ι] in
/-- Readers that are about to start. -/
def Readers.start (db : DBImpl) (keys outs : ι → Bytes) : Readers ι :=
  ⟨db, fun i => ⟨keys i, outs i, .start⟩⟩

/-- No `cache->get` behind a `contains` has returned null, and none would if it
came next. -/
structure HitsSucceed (s : Readers ι) : Prop where
  never_null : ∀ i, (s.readers i).place ≠ .got none
  next_found : ∀ i, (s.readers i).place = .hit →
    ∃ c p, s.db.cache.get host.hash (cString (s.readers i).key) = .ok (c, some p)

/-- What the reader brings back from a table does not push out a key that another
one is about to get. -/
def SparesHits (s : Readers ι) (i : ι) : Prop :=
  ∀ val, (s.readers i).place = .found val → ∀ j, (s.readers j).place = .hit →
    ¬ s.db.cache.Evicts host.hash (cString (s.readers i).key) (cString (s.readers j).key)

/-! ## One reader -/

variable {host sst} {s t : Readers ι} {i : ι}

/-- A step of a `Get` that has the database to itself. -/
def Reader.solo (host : Host) (sst : SstFormat) (p : DBImpl × Reader) (_ : Unit) :
    Exec (DBImpl × Reader) := do
  let (db, place) ← p.2.step host sst p.1
  pure (db, { p.2 with place := place })

/-- What one reader does in a row it could do alone. -/
theorem run_act_self (s : Readers ι) (i : ι) (n : ℕ) :
    run (act host sst) s (List.replicate n i) =
      (run (Reader.solo host sst) (s.db, s.readers i) (List.replicate n ())).map fun p =>
        ⟨p.1, Function.update s.readers i p.2⟩ := by
  induction n generalizing s with
  | zero =>
      show Except.ok s = Except.ok ⟨s.db, Function.update s.readers i (s.readers i)⟩
      rw [Function.update_eq_self]
  | succ n ih =>
      rw [List.replicate_succ, List.replicate_succ, run_cons, run_cons, act, Reader.solo]
      cases (s.readers i).step host sst s.db with
      | error e => rfl
      | ok p =>
          simp only [ok_bind, pure_eq_ok, ih, Function.update_self, Function.update_idem]

/-- Where the cache has the key, `contains`, `cache->get` and reading the node. -/
theorem solo_cached {db : DBImpl} {r : Reader} (hstart : r.place = .start)
    (hopen : db.closed = false) (hcontains : db.cache.contains host.hash (cString r.key) = true) :
    run (Reader.solo host sst) (db, r) (List.replicate 3 ()) =
      (db.get host sst r.key r.out).map fun (db, status, out) =>
        (db, { r with place := .done status out }) := by
  simp only [List.replicate, run_cons, run_nil, Reader.solo, Reader.step, hstart, get, getTiers,
    require_of hopen, hcontains, if_true, ok_bind, pure_eq_ok]
  cases db.cache.get host.hash (cString r.key) with
  | error e => rfl
  | ok p =>
      rcases p with ⟨cache, node⟩
      cases node with
      | none => rfl
      | some p =>
          simp only [ok_bind, orFail_some]
          cases cache.valueAt host.hash (cString r.key) p with
          | error e => rfl
          | ok val => rfl

/-- Else memtable and table are asked, and a value of the table is put into the
cache. -/
theorem solo_missed {db : DBImpl} {r : Reader} (hstart : r.place = .start)
    (hopen : db.closed = false) (hcontains : db.cache.contains host.hash (cString r.key) = false) :
    run (Reader.solo host sst) (db, r) (List.replicate 3 ()) =
      (db.get host sst r.key r.out).map fun (db, status, out) =>
        (db, { r with place := .done status out }) := by
  simp only [List.replicate, run_cons, run_nil, Reader.solo, Reader.step, hstart, get, getTiers,
    require_of hopen, hcontains, Bool.false_eq_true, if_false, ok_bind, pure_eq_ok]
  cases db.memTable.contains r.key with
  | error e => rfl
  | ok present =>
      cases present with
      | true =>
          -- the memtable answers
          simp only [if_true, ok_bind]
          cases db.memTable.get r.key with
          | error e => rfl
          | ok val₁ =>
              simp only [ok_bind]
              cases db.memTable.get (cString r.key) with
              | error e => rfl
              | ok val₂ =>
                  cases val₂ with
                  | none => rfl
                  | some val => rfl
      | false =>
          simp only [Bool.false_eq_true, if_false, ok_bind, getSST]
          cases db.files (resolve host.cwd (readPath db.options)) with
          | none => rfl
          | some content =>
              simp only [orFail_some, ok_bind]
              cases sst.seek content r.key with
              | error e => rfl
              | ok found =>
                  cases found with
                  | none => rfl
                  | some val =>
                      simp only [ok_bind]
                      cases db.cache.insert host.hash (cString r.key) val with
                      | error e => rfl
                      | ok cache => rfl

/-- Three steps of a `Get` that no other one disturbs are a `Get`. -/
theorem act_alone (hstart : (s.readers i).place = .start) :
    run (act host sst) s [i, i, i] =
      (s.db.get host sst (s.readers i).key (s.readers i).out).map fun (db, status, out) =>
        ⟨db, Function.update s.readers i { s.readers i with place := .done status out }⟩ := by
  have hself : run (act host sst) s [i, i, i] = _ := run_act_self s i 3
  have hget : run (Reader.solo host sst) (s.db, s.readers i) (List.replicate 3 ()) =
      (s.db.get host sst (s.readers i).key (s.readers i).out).map fun (db, status, out) =>
        (db, { s.readers i with place := .done status out }) := by
    by_cases hopen : s.db.closed = false
    · cases hcontains : s.db.cache.contains host.hash (cString (s.readers i).key) with
      | true => exact solo_cached hstart hopen hcontains
      | false => exact solo_missed hstart hopen hcontains
    · simp only [List.replicate, run_cons, Reader.solo, Reader.step, hstart, get, require,
        if_neg hopen, error_bind]
      rfl
  rw [hget] at hself
  refine hself.trans ?_
  cases s.db.get host sst (s.readers i).key (s.readers i).out with
  | error e => rfl
  | ok answer => rfl

/-! ## Many readers -/

/-- A step of a reader moves it, and leaves the other ones where they are. -/
theorem act_ok (hrun : act host sst s i = .ok t) :
    ∃ place, (s.readers i).step host sst s.db = .ok (t.db, place) ∧
      (t.readers i).place = place ∧ (t.readers i).key = (s.readers i).key ∧
      ∀ j, j ≠ i → t.readers j = s.readers j := by
  rcases bind_eq_ok.1 hrun with ⟨⟨db, place⟩, hstep, hrun⟩
  cases hrun
  refine ⟨place, hstep, ?_, ?_, ?_⟩
  · simp only [Function.update_self]
  · simp only [Function.update_self]
  · intro j hne
    exact Function.update_of_ne hne _ _

/-- What a step of a `Get` makes of its place and of the cache. -/
inductive Reader.StepCase (host : Host) (r : Reader) (c c' : Cache Bytes Bytes) : Place → Prop
  | hit (hplace : r.place = .start) (hcontains : c.contains host.hash (cString r.key) = true)
      (hsame : c' = c) : StepCase host r c c' .hit
  | got {node : Option Ptr} (hplace : r.place = .hit)
      (hget : c.get host.hash (cString r.key) = .ok (c', node)) : StepCase host r c c' (.got node)
  | insert {val out : Bytes} (hplace : r.place = .found val)
      (hins : c.insert host.hash (cString r.key) val = .ok c') :
      StepCase host r c c' (.done Status.success out)
  /-- the cache is not called, or does not have the key -/
  | other {place : Place} (hplace : r.place ≠ .hit) (hfound : ∀ val, r.place ≠ .found val)
      (hsame : c' = c) (hhit : place ≠ .hit) (hgot : ∀ node, place ≠ .got node) :
      StepCase host r c c' place

theorem Reader.step_cases {r : Reader} {db db' : DBImpl} {place : Place}
    (hrun : r.step host sst db = .ok (db', place)) :
    Reader.StepCase host r db.cache db'.cache place := by
  unfold Reader.step at hrun
  cases hplace : r.place with
  | start =>
      rw [hplace] at hrun
      rcases bind_eq_ok.1 hrun with ⟨-, -, hrun⟩
      cases hcontains : db.cache.contains host.hash (cString r.key) with
      | true =>
          rw [hcontains] at hrun
          cases hrun
          exact .hit hplace hcontains rfl
      | false =>
          rw [hcontains] at hrun
          cases hrun
          exact .other (by simp [hplace]) (by simp [hplace]) rfl (by simp) (by simp)
  | hit =>
      rw [hplace] at hrun
      rcases bind_eq_ok.1 hrun with ⟨⟨c, node⟩, hget, hrun⟩
      cases hrun
      exact .got hplace hget
  | got node =>
      rw [hplace] at hrun
      rcases bind_eq_ok.1 hrun with ⟨p, -, hrun⟩
      rcases bind_eq_ok.1 hrun with ⟨val, -, hrun⟩
      cases hrun
      exact .other (by simp [hplace]) (by simp [hplace]) rfl (by simp) (by simp)
  | missed =>
      rw [hplace] at hrun
      rcases bind_eq_ok.1 hrun with ⟨present, -, hrun⟩
      -- the memtable and the table are read, the cache is not touched
      cases present with
      | true =>
          rw [if_pos rfl] at hrun
          rcases bind_eq_ok.1 hrun with ⟨v₁, -, hrun⟩
          rcases bind_eq_ok.1 hrun with ⟨v₂, -, hrun⟩
          rcases bind_eq_ok.1 hrun with ⟨v₃, -, hrun⟩
          cases hrun
          exact .other (by simp [hplace]) (by simp [hplace]) rfl (by simp) (by simp)
      | false =>
          rw [if_neg Bool.false_ne_true] at hrun
          rcases bind_eq_ok.1 hrun with ⟨content, -, hrun⟩
          rcases bind_eq_ok.1 hrun with ⟨found, -, hrun⟩
          cases found with
          | none =>
              cases hrun
              exact .other (by simp [hplace]) (by simp [hplace]) rfl (by simp) (by simp)
          | some val =>
              cases hrun
              exact .other (by simp [hplace]) (by simp [hplace]) rfl (by simp) (by simp)
  | found val =>
      rw [hplace] at hrun
      rcases bind_eq_ok.1 hrun with ⟨c, hins, hrun⟩
      cases hrun
      exact .insert hplace hins
  | done status out =>
      rw [hplace] at hrun
      cases hrun
      exact .other (by simp [hplace]) (by simp [hplace]) rfl (by simp) (by simp)

theorem act_stocked (h : s.db.cache.Stocked) (hrun : act host sst s i = .ok t) :
    t.db.cache.Stocked := by
  rcases act_ok hrun with ⟨place, hstep, -⟩
  cases Reader.step_cases hstep with
  | hit _ _ hsame => rwa [hsame]
  | got _ hget => exact h.get hget
  | insert _ hins => exact h.insert hins
  | other _ _ hsame _ _ => rwa [hsame]

/-- What holds of the reader that moved and of those that stand still. -/
theorem forall_moved {P : Reader → Prop} (hother : ∀ j, j ≠ i → t.readers j = s.readers j) :
    (∀ j, P (t.readers j)) ↔ P (t.readers i) ∧ ∀ j, j ≠ i → P (s.readers j) := by
  constructor
  · intro hall
    refine ⟨hall i, ?_⟩
    intro j hj
    rw [← hother j hj]
    exact hall j
  · rintro ⟨hi, hrest⟩ j
    by_cases hj : j = i
    · rw [hj]
      exact hi
    · rw [hother j hj]
      exact hrest j hj

/-- The `Get` has not got null, and would not get it now. -/
def Reader.Served (host : Host) (c : Cache Bytes Bytes) (r : Reader) : Prop :=
  r.place ≠ .got none ∧ (r.place = .hit → c.contains host.hash (cString r.key) = true)

omit [DecidableEq ι] in
/-- Whether a `get` would succeed is what `contains` says. -/
theorem hitsSucceed_iff (h : s.db.cache.Stocked) :
    HitsSucceed host s ↔ ∀ i, (s.readers i).Served host s.db.cache := by
  constructor
  · rintro ⟨hnull, hnext⟩ i
    refine ⟨hnull i, ?_⟩
    intro hi
    rcases hnext i hi with ⟨c, p, hget⟩
    rw [← Cache.get_isSome h hget]
    rfl
  · intro hserved
    refine ⟨fun i => (hserved i).1, ?_⟩
    intro i hi
    rcases h.get_returns host.hash (cString (s.readers i).key) with ⟨c, node, hget⟩
    have hsome := Cache.get_isSome h hget
    rw [(hserved i).2 hi] at hsome
    rcases Option.isSome_iff_exists.1 hsome with ⟨p, rfl⟩
    exact ⟨c, p, hget⟩

omit [DecidableEq ι] in
theorem sparesHits_of_not_found (h : ∀ val, (s.readers i).place ≠ .found val) :
    SparesHits host s i := by
  intro val hval
  exact absurd hval (h val)

/-- While all is well, a step keeps it well exactly if it spares the keys that
other readers are about to get. -/
theorem act_hitsSucceed_iff (h : s.db.cache.Stocked) (hgood : HitsSucceed host s)
    (hrun : act host sst s i = .ok t) : HitsSucceed host t ↔ SparesHits host s i := by
  rcases act_ok hrun with ⟨place, hstep, hplace, hkey, hother⟩
  rw [hitsSucceed_iff (act_stocked h hrun), forall_moved hother]
  rw [hitsSucceed_iff h] at hgood
  cases Reader.step_cases hstep with
  | hit hstart hfound hsame =>
      rw [hsame]
      refine iff_of_true ⟨⟨by simp [hplace], ?_⟩, fun j _ => hgood j⟩
        (sparesHits_of_not_found (by simp [hstart]))
      intro _
      rw [hkey]
      exact hfound
  | got hhit hget =>
      rename_i node
      have hsome := Cache.get_isSome h hget
      rw [(hgood i).2 hhit] at hsome
      refine iff_of_true ⟨⟨?_, by simp [hplace]⟩, ?_⟩
        (sparesHits_of_not_found (by simp [hhit]))
      · rw [hplace]
        intro heq
        cases heq
        cases hsome
      · -- what `get` does to the cache takes no key away
        intro j _
        refine ⟨(hgood j).1, ?_⟩
        intro hhit'
        exact Cache.get_contains h hget ((hgood j).2 hhit')
  | insert hval hins =>
      rename_i val out
      have hmoved : (t.readers i).Served host t.db.cache := by
        constructor
        · simp [hplace]
        · simp [hplace]
      constructor
      · -- a reader that is about to get its key is another one
        rintro ⟨-, hafter⟩ val' - j hhit
        have hj : j ≠ i := by
          rintro rfl
          rw [hval] at hhit
          cases hhit
        rw [← Cache.insert_contains_iff h hins ((hgood j).2 hhit)]
        exact (hafter j hj).2 hhit
      · intro hspares
        refine ⟨hmoved, ?_⟩
        intro j _
        refine ⟨(hgood j).1, ?_⟩
        intro hhit
        rw [Cache.insert_contains_iff h hins ((hgood j).2 hhit)]
        exact hspares val hval j hhit
  | other hnothit hnotfound hsame hhit hgot =>
      -- the cache is the same and the reader is not about to get anything
      rw [hsame]
      refine iff_of_true ⟨⟨?_, ?_⟩, fun j _ => hgood j⟩ (sparesHits_of_not_found hnotfound)
      · rw [hplace]
        exact hgot none
      · intro hhit'
        rw [hplace] at hhit'
        exact absurd hhit' hhit

theorem acts_stocked {schedule : List ι} (h : s.db.cache.Stocked)
    (hrun : run (act host sst) s schedule = .ok t) : t.db.cache.Stocked :=
  run_invariant (fun s => s.db.cache.Stocked) (fun _ _ _ h hstep => act_stocked h hstep) h hrun

end DBImpl

open DBImpl

/-- However `Get`s are interleaved, no `cache->get` behind a `contains` returns
null, exactly as long as no value that comes back from a table pushes out a key
that another `Get` is about to get. -/
theorem readers_iff (host : Host) (sst : SstFormat) (options : Options) (disk : Disk)
    {ops : List Op} {db : DBImpl}
    (hdb : run (step host sst) (openDB options disk) ops = .ok db) {ι : Type} [DecidableEq ι]
    (keys outs : ι → Bytes) {schedule : List ι} {s : Readers ι}
    (hrun : run (act host sst) (Readers.start db keys outs) schedule = .ok s) :
    Always (act host sst) (fun _ s => HitsSucceed host s) (Readers.start db keys outs) schedule ↔
      GuardedRun (act host sst) (SparesHits host) (Readers.start db keys outs) schedule s := by
  refine always_iff_guardedRun ?_ ?_ hrun
  · constructor
    · intro i hi
      cases hi
    · intro i hi
      cases hi
  · intro as s₁ i s₂ _ has hgood hact
    exact act_hitsSucceed_iff (acts_stocked (run_stocked hdb) has) hgood hact

/-- A cache of one entry a shard, a memtable of two bytes, and a directory whose
first table `Get` finds. -/
def narrowOptions : Options where
  storageDir := ascii "db/"
  memTableMaxSize := 2
  cacheSize := 1
  storageDir_nulFree := by decide

/-- A `Get` of "a" and one of "b", behind a `Put` of each. -/
def twoKeys (i : ℕ) : Bytes := if i = 0 then ascii "a" else ascii "b"

def twoPuts : List Op :=
  [.write (.put [] (ascii "b") (ascii "1")), .write (.put [] (ascii "a") (ascii "2"))]

/-- One after the other they succeed. -/
theorem readers_iff_serial :
    ∃ db s, run (step plainHost plainFormat) (openDB narrowOptions Disk.empty) twoPuts = .ok db ∧
      run (act plainHost plainFormat) (Readers.start db twoKeys fun _ => []) [0, 0, 0, 1, 1, 1] =
        .ok s ∧
      (Always (act plainHost plainFormat) (fun _ s => HitsSucceed plainHost s)
          (Readers.start db twoKeys fun _ => []) [0, 0, 0, 1, 1, 1] ↔
        GuardedRun (act plainHost plainFormat) (SparesHits plainHost)
          (Readers.start db twoKeys fun _ => []) [0, 0, 0, 1, 1, 1] s) := by
  have hruns : ∃ db s,
      run (step plainHost plainFormat) (openDB narrowOptions Disk.empty) twoPuts = .ok db ∧
        run (act plainHost plainFormat) (Readers.start db twoKeys fun _ => [])
          [0, 0, 0, 1, 1, 1] = .ok s := ⟨_, _, rfl, rfl⟩
  rcases hruns with ⟨db, s, hdb, hrun⟩
  exact ⟨db, s, hdb, hrun, readers_iff plainHost plainFormat narrowOptions Disk.empty hdb twoKeys
    (fun _ => []) hrun⟩

/-- Between its two calls the `Get` of "a" loses its key to the `Get` of "b". -/
theorem hit_pushed_out :
    ∃ db, run (step plainHost plainFormat) (openDB narrowOptions Disk.empty) twoPuts = .ok db ∧
      ¬ Always (act plainHost plainFormat) (fun _ s => HitsSucceed plainHost s)
        (Readers.start db twoKeys fun _ => []) [0, 1, 1, 1, 0] := by
  refine ⟨_, rfl, ?_⟩
  intro h
  exact (h _ (List.prefix_refl _) _ rfl).never_null 0 rfl

end Smallkv
