import Smallkv.Cache.Contents
import Smallkv.DB.Readers
import Smallkv.DB.TierAnswers
import Smallkv.Lib.MutexProgress

/-!
# DB.Clients — calls from many threads

`Put` and `Delete` hold `rwlock_` alone, `Get`s share it, and each of them looks
at `closed` before it asks for the lock. The stages of a write and the steps of
a `Get` are what threads can be interleaved at. `Close` takes no lock at all; it
is left to the time when the clients are through.
-/

namespace Smallkv

open Fallible SharedMutex

namespace DBImpl

variable (host : Host) (sst : SstFormat)

inductive Request where
  | write (w : Write)
  /-- with the content of `*ret_value_ptr` -/
  | get (key out : Bytes)

/-- What is left of a call that holds the lock. -/
inductive Section where
  | writing (rest : List Stage)
  | reading (r : Reader)

/-- The calls under `rwlock_`. The look at `closed` that a `Get` begins with is
made before the lock is taken, and once more behind it. -/
def protocol : Protocol Fault DBImpl Request Section where
  check db _ := require .assertion (db.closed = false)
  exclusive
    | .write _ => true
    | .get _ _ => false
  start
    | .write w => .writing w.stages
    | .get key out => .reading ⟨key, out, .start⟩
  isOver
    | .writing rest => rest.isEmpty
    | .reading ⟨_, _, .done _ _⟩ => true
    | .reading _ => false
  step db
    | .writing [] => pure (db, .writing [])
    | .writing (stage :: rest) => do
      let db ← db.execStage host sst stage
      pure (db, .writing rest)
    | .reading r => do
      let (db, place) ← r.step host sst db
      pure (db, .reading { r with place := place })

abbrev Clients (ι : Type) := State ι DBImpl Request Section

/-- Clients with their calls, on a database that was just opened. -/
def runClients {ι : Type} [DecidableEq ι] (options : Options) (disk : Disk)
    (programs : ι → List Request) (schedule : List ι) : Exec (Clients ι) :=
  run (SharedMutex.act (protocol host sst)) (State.start (openDB options disk) programs) schedule

/-- The writes, one after the other, on a database that was just opened. -/
def serially (options : Options) (disk : Disk) (ws : List Write) : Exec DBImpl :=
  run (step host sst) (openDB options disk) (ws.map Op.write)

/-- What the file says to a `Get` that finds its key in no other tier. -/
def TableAnswers (options : Options) (disk : Disk) (ws : List Write) (key : Bytes)
    (answer : Option Bytes) : Prop :=
  ∃ t content, serially host sst options disk ws = .ok t ∧ t.memTable.contains key = .ok false ∧
    t.files (resolve host.cwd (readPath t.options)) = some content ∧
    sst.seek content key = .ok answer

/-- Behind some of the writes the value was the last one stored under the C string,
or the file had it for a key with that C string. -/
def Seen (options : Options) (disk : Disk) (ws : List Write) (k v : Bytes) : Prop :=
  ∃ n ≤ ws.length, lastStored (ws.take n) k = some v ∨
    ∃ key, cString key = k ∧ TableAnswers host sst options disk (ws.take n) key (some v)

/-- What a `Get` may answer that was let in behind the writes. -/
inductive GetAnswer (options : Options) (disk : Disk) (ws : List Write) (key out : Bytes) :
    DBStatus → Bytes → Prop
  /-- from cache or memtable -/
  | held {v : Bytes} (hseen : Seen host sst options disk ws (cString key) v) :
      GetAnswer options disk ws key out Status.success v
  | table {v : Bytes} (htable : TableAnswers host sst options disk ws key (some v)) :
      GetAnswer options disk ws key out Status.success (out ++ v)
  | notFound (htable : TableAnswers host sst options disk ws key none) :
      GetAnswer options disk ws key out Status.notFound out

/-! ## Stages and the cache -/

def withCache (db : DBImpl) (c : Cache Bytes Bytes) : DBImpl := { db with cache := c }

variable {host sst} {options : Options} {disk : Disk} {db db' t t' : DBImpl}

theorem writeLog_withCache (t : DBImpl) (c : Cache Bytes Bytes) (key value : Bytes) :
    (t.withCache c).writeLog host key value =
      (t.writeLog host key value).map fun t => t.withCache c := by
  have hwriter : (t.withCache c).walWriter = t.walWriter := rfl
  rw [writeLog, writeLog, hwriter]
  cases walAppend host.crc32c t.walWriter key value with
  | error e => rfl
  | ok w => rfl

theorem putMemTable_withCache (t : DBImpl) (c : Cache Bytes Bytes) (flips : List Bool)
    (key value : Bytes) :
    (t.withCache c).putMemTable flips key value =
      (t.putMemTable flips key value).map fun t => t.withCache c := by
  have hmem : (t.withCache c).memTable = t.memTable := rfl
  rw [putMemTable, putMemTable, hmem]
  cases t.memTable.contains key with
  | error e => rfl
  | ok present =>
      cases present with
      | true =>
          simp only [ok_bind, if_true]
          cases t.memTable.update flips key value with
          | error e => rfl
          | ok m => rfl
      | false =>
          simp only [ok_bind, Bool.false_eq_true, if_false]
          cases t.memTable.add flips key value with
          | error e => rfl
          | ok m => rfl

theorem deleteMemTable_withCache (t : DBImpl) (c : Cache Bytes Bytes) (flips : List Bool)
    (key : Bytes) :
    (t.withCache c).deleteMemTable flips key =
      (t.deleteMemTable flips key).map fun t => t.withCache c := by
  have hmem : (t.withCache c).memTable = t.memTable := rfl
  rw [deleteMemTable, deleteMemTable, hmem]
  cases t.memTable.contains key with
  | error e => rfl
  | ok present =>
      cases present with
      | true =>
          simp only [ok_bind, if_true]
          cases t.memTable.delete flips key with
          | error e => rfl
          | ok m => rfl
      | false =>
          simp only [ok_bind, Bool.false_eq_true, if_false]
          cases t.memTable.add flips key [] with
          | error e => rfl
          | ok m => rfl

theorem memTableToSST_withCache (t : DBImpl) (c : Cache Bytes Bytes) :
    (t.withCache c).memTableToSST host sst =
      (t.memTableToSST host sst).map fun t => t.withCache c := by
  have hmem : (t.withCache c).memTable = t.memTable := rfl
  have hoptions : (t.withCache c).options = t.options := rfl
  have hfiles : (t.withCache c).files = t.files := rfl
  simp only [memTableToSST, hmem, hoptions, hfiles]
  cases openForAppend t.files host.cwd (writePath t.options t.options.lisstNum) with
  | error e => rfl
  | ok content =>
      simp only [ok_bind]
      cases t.memTable.entries with
      | error e => rfl
      | ok entries =>
          simp only [ok_bind]
          cases sst.build t.memTable.getSize entries with
          | error e => rfl
          | ok bytes => rfl

theorem flushIfFull_withCache (t : DBImpl) (c : Cache Bytes Bytes) :
    (t.withCache c).flushIfFull host sst =
      (t.flushIfFull host sst).map fun t => t.withCache c := by
  have hmem : (t.withCache c).memTable = t.memTable := rfl
  have hoptions : (t.withCache c).options = t.options := rfl
  rw [flushIfFull, flushIfFull, hmem, hoptions, memTableToSST_withCache]
  split
  · cases t.memTableToSST host sst with
    | error e => rfl
    | ok t => rfl
  · rfl

/-- The stages that do not call the cache. -/
theorem of_withCache {x y : Exec DBImpl} {c : Cache Bytes Bytes}
    (heq : x = y.map fun t => t.withCache c) (hrun : x = .ok db') :
    ∃ t', y = .ok t' ∧ db' = t'.withCache c := by
  cases y with
  | error e =>
      rw [heq] at hrun
      cases hrun
  | ok t' =>
      rw [heq] at hrun
      cases hrun
      exact ⟨t', rfl, rfl⟩

/-- A stage does the same whatever is in the cache. -/
theorem execStage_withCache (hstocked : t.cache.Stocked) {c : Cache Bytes Bytes}
    (hc : c.Stocked) {stage : Stage} (hrun : (t.withCache c).execStage host sst stage = .ok db') :
    ∃ t' c', t.execStage host sst stage = .ok t' ∧ db' = t'.withCache c' ∧ t'.cache.Stocked ∧
      c'.Stocked := by
  cases stage with
  | log key value =>
      rcases of_withCache (writeLog_withCache t c key value) hrun with ⟨t', ht, rfl⟩
      exact ⟨t', c, ht, rfl, writeLog_cache ht ▸ hstocked, hc⟩
  | putMemTable flips key value =>
      rcases of_withCache (putMemTable_withCache t c flips key value) hrun with ⟨t', ht, rfl⟩
      exact ⟨t', c, ht, rfl, putMemTable_cache ht ▸ hstocked, hc⟩
  | deleteMemTable flips key =>
      rcases of_withCache (deleteMemTable_withCache t c flips key) hrun with ⟨t', ht, rfl⟩
      exact ⟨t', c, ht, rfl, deleteMemTable_cache ht ▸ hstocked, hc⟩
  | putCache key value =>
      rcases bind_eq_ok.1 hrun with ⟨c', hins, hrun⟩
      cases hrun
      rcases hstocked.insert_returns host.hash (cString key) (cString value) with ⟨c₁, hins₁⟩
      refine ⟨t.withCache c₁, c', ?_, rfl, hstocked.insert hins₁, hc.insert hins⟩
      simp only [execStage, putCache, hins₁, ok_bind, pure_eq_ok, withCache]
  | eraseCache key =>
      rcases bind_eq_ok.1 hrun with ⟨c', her, hrun⟩
      cases hrun
      rcases hstocked.erase_returns host.hash (cString key) with ⟨c₁, her₁⟩
      refine ⟨t.withCache c₁, c', ?_, rfl, hstocked.erase her₁, hc.erase her⟩
      simp only [execStage, eraseCache, her₁, ok_bind, pure_eq_ok, withCache]
  | flush =>
      rcases of_withCache (flushIfFull_withCache t c) hrun with ⟨t', ht, rfl⟩
      exact ⟨t', c, ht, rfl, flushIfFull_cache ht ▸ hstocked, hc⟩

theorem execStage_evolves {Q : Bytes → Bytes → Prop} {stage : Stage}
    (hq : ∀ key value, stage = .putCache key value → Q (cString key) (cString value))
    (hrun : db.execStage host sst stage = .ok db') : Cache.Evolves Q db.cache db'.cache := by
  cases stage with
  | log key value => exact writeLog_cache hrun ▸ .refl Q db.cache
  | putMemTable flips key value => exact putMemTable_cache hrun ▸ .refl Q db.cache
  | deleteMemTable flips key => exact deleteMemTable_cache hrun ▸ .refl Q db.cache
  | putCache key value =>
      rcases bind_eq_ok.1 hrun with ⟨c, hins, hrun⟩
      cases hrun
      exact Cache.insert_evolves (hq key value rfl) hins
  | eraseCache key =>
      rcases bind_eq_ok.1 hrun with ⟨c, her, hrun⟩
      cases hrun
      exact Cache.erase_evolves her
  | flush => exact flushIfFull_cache hrun ▸ .refl Q db.cache

/-! ## One after the other -/

theorem writes_map_write (ws : List Write) : writes (ws.map Op.write) = ws := by
  induction ws with
  | nil => rfl
  | cons w ws ih => rw [List.map_cons, writes, ih]

theorem serially_concat {ws : List Write} {w : Write} :
    serially host sst options disk (ws ++ [w]) = .ok t' ↔
      ∃ t, serially host sst options disk ws = .ok t ∧ t.write host sst w = .ok t' := by
  rw [serially, List.map_append, List.map_singleton, run_concat_ok]
  rfl

theorem serially_open {ws : List Write} (hrun : serially host sst options disk ws = .ok t) :
    t.closed = false :=
  (run_flushLog hrun).2.1

/-- What the memtable has was stored last. -/
theorem serially_memTable {ws : List Write} (hrun : serially host sst options disk ws = .ok t) :
    ∃ mem, t.memTable.Represents mem ∧ Assoc.Submap mem (lastStored ws) := by
  rcases run_memTable hrun with ⟨mem, cached, h, hsub⟩
  rw [writes_map_write] at hsub
  exact ⟨mem, h.memTable, hsub⟩

variable {ws : List Write} {w : Write} {key out : Bytes}

theorem Seen.concat {k v : Bytes} (h : Seen host sst options disk ws k v) (w : Write) :
    Seen host sst options disk (ws ++ [w]) k v := by
  rcases h with ⟨n, hn, h⟩
  refine ⟨n, by rw [List.length_append]; omega, ?_⟩
  rwa [List.take_append_of_le_length hn]

theorem Seen.of_lastStored {k v : Bytes} (h : lastStored ws k = some v) :
    Seen host sst options disk ws k v :=
  ⟨ws.length, le_refl _, Or.inl (by rwa [List.take_length])⟩

/-! ## What holds of the clients -/

/-- No writer is inside: but for the cache, the database is where the writes lead
one after the other. -/
structure Behind (host : Host) (sst : SstFormat) (options : Options) (disk : Disk)
    (ws : List Write) (db : DBImpl) : Prop where
  serial : ∃ t c, serially host sst options disk ws = .ok t ∧ db = t.withCache c
  stocked : db.cache.Stocked
  seen : db.cache.HoldsOnly (Seen host sst options disk ws)

/-- A writer is inside: some of its stages were run. -/
structure Writing (host : Host) (sst : SstFormat) (options : Options) (disk : Disk)
    (ws : List Write) (w : Write) (rest : List Stage) (db : DBImpl) : Prop where
  serial : ∃ done t t' c, serially host sst options disk ws = .ok t ∧ w.stages = done ++ rest ∧
    run (execStage host sst) t done = .ok t' ∧ t'.cache.Stocked ∧ db = t'.withCache c
  stocked : db.cache.Stocked
  seen : db.cache.HoldsOnly (Seen host sst options disk (ws ++ [w]))

/-- What a reader has in hand. -/
def PlaceHolds (host : Host) (sst : SstFormat) (options : Options) (disk : Disk)
    (ws : List Write) (key out : Bytes) (db : DBImpl) : Place → Prop
  | .got (some p) =>
    LRU.Pinned (fun k v => k = cString key ∧ Seen host sst options disk ws k v)
      (db.cache.caches (Cache.shardingIndex host.hash (cString key))) p
  | .found val => TableAnswers host sst options disk ws key (some val)
  | .done status answer => GetAnswer host sst options disk ws key out status answer
  | _ => True

theorem Behind.enter (h : Behind host sst options disk ws db) (w : Write) :
    Writing host sst options disk ws w w.stages db where
  serial := by
    rcases h.serial with ⟨t, c, ht, heq⟩
    exact ⟨[], t, t, c, ht, rfl, rfl, run_stocked ht, heq⟩
  stocked := h.stocked
  seen := h.seen.mono fun _ _ hseen => hseen.concat w

theorem Writing.step {stage : Stage} {rest : List Stage}
    (h : Writing host sst options disk ws w (stage :: rest) db)
    (hrun : db.execStage host sst stage = .ok db') :
    Writing host sst options disk ws w rest db' := by
  rcases h.serial with ⟨done, t, t₁, c, ht, hstages, hdone, hstocked, rfl⟩
  have hevolves : Cache.Evolves (Seen host sst options disk (ws ++ [w])) c db'.cache := by
    refine execStage_evolves ?_ hrun
    rintro key value rfl
    -- the pair goes into the cache that this write stores
    refine Seen.of_lastStored ?_
    have hmem : Stage.putCache key value ∈ w.stages := by simp [hstages]
    cases w with
    | put flips key' value' =>
        simp only [Write.stages, Write.steps, List.cons_append, List.nil_append, List.mem_cons,
          reduceCtorEq, Stage.putCache.injEq, List.not_mem_nil, or_false, false_or] at hmem
        rcases hmem with ⟨rfl, rfl⟩
        rw [lastStored_concat]
        exact Function.update_self _ _ _
    | delete flips key' => simp [Write.stages, Write.steps] at hmem
  rcases execStage_withCache hstocked h.stocked hrun with ⟨t', c', ht', rfl, hstocked', hc'⟩
  exact
    { serial := ⟨done ++ [stage], t, t', c', ht, by simp [hstages], run_concat_ok.2 ⟨t₁, hdone, ht'⟩,
        hstocked', rfl⟩
      stocked := hc'
      seen := hevolves.holdsOnly h.seen }

theorem Writing.leave (h : Writing host sst options disk ws w [] db) :
    Behind host sst options disk (ws ++ [w]) db where
  serial := by
    rcases h.serial with ⟨done, t, t', c, ht, hstages, hdone, -, heq⟩
    rw [List.append_nil] at hstages
    refine ⟨t', c, serially_concat.2 ⟨t, ht, ?_⟩, heq⟩
    rw [write_eq_run host sst (serially_open ht), hstages, hdone]
  stocked := h.stocked
  seen := h.seen

/-- What a reader has in hand stays good while others call the cache. -/
theorem PlaceHolds.evolves {Q : Bytes → Bytes → Prop} {place : Place}
    (h : PlaceHolds host sst options disk ws key out db place)
    (hevolves : Cache.Evolves Q db.cache db'.cache) :
    PlaceHolds host sst options disk ws key out db' place := by
  cases place with
  | got node =>
      cases node with
      | none => trivial
      | some p =>
          simp only [PlaceHolds] at h ⊢
          exact (hevolves _).pinned h
  | start => trivial
  | hit => trivial
  | missed => trivial
  | found val => exact h
  | done status answer => exact h

/-- A `Get` past the cache: the memtable answers, or else the file. -/
theorem missed_cases {place : Place}
    (hrun : Reader.step host sst db ⟨key, out, .missed⟩ = .ok (db', place)) :
    db' = db ∧
      ((∃ val, db.memTable.get (cString key) = .ok (some val) ∧
          place = .done Status.success val) ∨
        db.memTable.contains key = .ok false ∧
          ∃ content, db.files (resolve host.cwd (readPath db.options)) = some content ∧
            ((sst.seek content key = .ok none ∧ place = .done Status.notFound out) ∨
              ∃ val, sst.seek content key = .ok (some val) ∧ place = .found val)) := by
  rcases bind_eq_ok.1 hrun with ⟨present, hcontains, hrun⟩
  cases present with
  | true =>
      rw [if_pos rfl] at hrun
      rcases bind_eq_ok.1 hrun with ⟨-, -, hrun⟩
      rcases bind_eq_ok.1 hrun with ⟨v, hget, hrun⟩
      rcases bind_eq_ok.1 hrun with ⟨val, hval, hrun⟩
      cases hrun
      rw [orFail_eq_ok] at hval
      exact ⟨rfl, Or.inl ⟨val, hval ▸ hget, rfl⟩⟩
  | false =>
      rw [if_neg Bool.false_ne_true] at hrun
      rcases bind_eq_ok.1 hrun with ⟨content, hfile, hrun⟩
      rcases bind_eq_ok.1 hrun with ⟨answer, hseek, hrun⟩
      cases answer with
      | none =>
          cases hrun
          exact ⟨rfl, Or.inr ⟨hcontains, content, orFail_eq_ok.1 hfile, Or.inl ⟨hseek, rfl⟩⟩⟩
      | some val =>
          cases hrun
          exact ⟨rfl, Or.inr ⟨hcontains, content, orFail_eq_ok.1 hfile,
            Or.inr ⟨val, hseek, rfl⟩⟩⟩

/-- Memtable and file answer as they do behind the writes. -/
theorem Behind.missed (h : Behind host sst options disk ws db) {place : Place}
    (hrun : Reader.step host sst db ⟨key, out, .missed⟩ = .ok (db', place)) :
    db' = db ∧ PlaceHolds host sst options disk ws key out db place := by
  rcases missed_cases hrun with ⟨rfl, hmissed⟩
  refine ⟨rfl, ?_⟩
  rcases h.serial with ⟨t, c, ht, rfl⟩
  rcases hmissed with ⟨val, hget, rfl⟩ | ⟨hcontains, content, hfile, hread⟩
  · refine .held (.of_lastStored ?_)
    rcases serially_memTable ht with ⟨mem, hmem, hsub⟩
    have hval : mem (cString (cString key)) = some val :=
      Except.ok.inj ((hmem.get (cString key)).symm.trans hget)
    rw [cString_cString] at hval
    exact hsub _ _ hval
  · rcases hread with ⟨hseek, rfl⟩ | ⟨val, hseek, rfl⟩
    · exact .notFound ⟨t, content, ht, hcontains, hfile, hseek⟩
    · exact ⟨t, content, ht, hcontains, hfile, hseek⟩

/-- A step of a reader: it keeps what holds behind the writes, and disturbs no other
reader. -/
theorem Behind.step (h : Behind host sst options disk ws db) {place place' : Place}
    (hplace : PlaceHolds host sst options disk ws key out db place)
    (hrun : Reader.step host sst db ⟨key, out, place⟩ = .ok (db', place')) :
    Behind host sst options disk ws db' ∧ PlaceHolds host sst options disk ws key out db' place' ∧
      Cache.Evolves (Seen host sst options disk ws) db.cache db'.cache := by
  have hsame : db' = db → PlaceHolds host sst options disk ws key out db place' →
      Behind host sst options disk ws db' ∧
        PlaceHolds host sst options disk ws key out db' place' ∧
        Cache.Evolves (Seen host sst options disk ws) db.cache db'.cache := by
    rintro rfl hplace'
    exact ⟨h, hplace', .refl _ _⟩
  have hcalled : ∀ c, db' = db.withCache c → c.Stocked →
      Cache.Evolves (Seen host sst options disk ws) db.cache c →
        Behind host sst options disk ws db' := by
    rintro c rfl hc hevolves
    rcases h.serial with ⟨t, c₀, ht, rfl⟩
    exact ⟨⟨t, c, ht, rfl⟩, hc, hevolves.holdsOnly h.seen⟩
  cases place with
  | start =>
      rcases bind_eq_ok.1 hrun with ⟨-, -, hrun⟩
      split at hrun
      · cases hrun
        exact hsame rfl trivial
      · cases hrun
        exact hsame rfl trivial
  | hit =>
      rcases bind_eq_ok.1 hrun with ⟨⟨c, node⟩, hget, hrun⟩
      cases hrun
      have hevolves := Cache.get_evolves (Q := Seen host sst options disk ws) hget
      refine ⟨hcalled c rfl (h.stocked.get hget) hevolves, ?_, hevolves⟩
      cases node with
      | none => trivial
      | some p => exact h.stocked.get_pinned h.seen hget
  | got node =>
      rcases bind_eq_ok.1 hrun with ⟨p, hnode, hrun⟩
      rcases bind_eq_ok.1 hrun with ⟨val, hval, hrun⟩
      cases hrun
      rw [orFail_eq_ok] at hnode
      subst hnode
      simp only [PlaceHolds] at hplace
      rcases Cache.valueAt_pinned hplace hval with ⟨k, rfl, hseen⟩
      exact hsame rfl (.held hseen)
  | missed =>
      rcases h.missed hrun with ⟨rfl, hplace'⟩
      exact hsame rfl hplace'
  | found val =>
      rcases bind_eq_ok.1 hrun with ⟨c, hins, hrun⟩
      cases hrun
      have hseen : Seen host sst options disk ws (cString key) val :=
        ⟨ws.length, le_refl _, Or.inr ⟨key, rfl, by rwa [List.take_length]⟩⟩
      have hevolves := Cache.insert_evolves hseen hins
      exact ⟨hcalled c rfl (h.stocked.insert hins) hevolves, .table hplace, hevolves⟩
  | done status answer =>
      cases hrun
      exact hsame rfl hplace

/-! ## The rule -/

def IdleHolds (host : Host) (sst : SstFormat) (options : Options) (disk : Disk) (cs : List Request)
    (db : DBImpl) : Prop :=
  ∃ ws, cs = ws.map Request.write ∧ Behind host sst options disk ws db

def WriterHolds (host : Host) (sst : SstFormat) (options : Options) (disk : Disk)
    (cs : List Request) (c : Request) (db : DBImpl) (l : Section) : Prop :=
  ∃ ws w rest, cs = ws.map Request.write ∧ c = .write w ∧ l = .writing rest ∧
    Writing host sst options disk ws w rest db

def ReaderHolds (host : Host) (sst : SstFormat) (options : Options) (disk : Disk)
    (cs : List Request) (c : Request) (db : DBImpl) (l : Section) : Prop :=
  ∃ ws key out place, cs = ws.map Request.write ∧ c = .get key out ∧ l = .reading ⟨key, out, place⟩ ∧
    PlaceHolds host sst options disk ws key out db place

/-- A write ends, and a `Get` ends with an answer. -/
def EndHolds (host : Host) (sst : SstFormat) (options : Options) (disk : Disk) (cs : List Request)
    (c : Request) (l : Section) : Prop :=
  ∃ ws, cs = ws.map Request.write ∧ ∀ key out, c = .get key out → ∃ status answer,
    l = .reading ⟨key, out, .done status answer⟩ ∧
      GetAnswer host sst options disk ws key out status answer

theorem request_write_injective : Function.Injective (List.map Request.write) :=
  List.map_injective_iff.2 fun _ _ h => Request.write.inj h

theorem protocol_rule (host : Host) (sst : SstFormat) (options : Options) (disk : Disk) :
    Rule (protocol host sst) (IdleHolds host sst options disk) (WriterHolds host sst options disk)
      (ReaderHolds host sst options disk) (EndHolds host sst options disk) where
  writer_enter := by
    rintro cs c db hmode ⟨ws, rfl, h⟩
    cases c with
    | write w => exact ⟨ws, w, _, rfl, rfl, rfl, h.enter w⟩
    | get key out => cases hmode
  writer_step := by
    rintro cs c db db' l l' - ⟨ws, w, rest, rfl, rfl, rfl, h⟩ - hrun
    cases rest with
    | nil =>
        cases hrun
        exact ⟨ws, w, [], rfl, rfl, rfl, h⟩
    | cons stage rest =>
        rcases bind_eq_ok.1 hrun with ⟨db₁, hstage, hrun⟩
        cases hrun
        exact ⟨ws, w, rest, rfl, rfl, rfl, h.step hstage⟩
  writer_leave := by
    rintro cs c db l - ⟨ws, w, rest, rfl, rfl, rfl, h⟩ hover
    obtain rfl : rest = [] := by simpa [protocol] using hover
    refine ⟨⟨ws ++ [w], by simp, h.leave⟩, ws, rfl, ?_⟩
    intro key out hget
    cases hget
  reader_enter := by
    rintro cs c db hmode ⟨ws, rfl, -⟩
    cases c with
    | write w => cases hmode
    | get key out => exact ⟨ws, key, out, .start, rfl, rfl, rfl, trivial⟩
  reader_step := by
    rintro cs c db db' l l' - ⟨ws, hcs, h⟩ ⟨ws', key, out, place, rfl, rfl, rfl, hplace⟩ - hrun
    obtain rfl : ws = ws' := request_write_injective hcs.symm
    rcases bind_eq_ok.1 hrun with ⟨⟨db₁, place'⟩, hstep, hrun⟩
    cases hrun
    rcases h.step hplace hstep with ⟨h', hplace', hevolves⟩
    refine ⟨⟨ws, rfl, h'⟩, ⟨ws, key, out, place', rfl, rfl, rfl, hplace'⟩, ?_⟩
    rintro c₂ l₂ ⟨ws₂, key₂, out₂, place₂, hws₂, rfl, rfl, h₂⟩
    exact ⟨ws₂, key₂, out₂, place₂, hws₂, rfl, rfl, h₂.evolves hevolves⟩
  reader_leave := by
    rintro cs c db l - ⟨ws, key, out, place, rfl, rfl, rfl, hplace⟩ hover
    refine ⟨ws, rfl, ?_⟩
    intro key' out' heq
    cases heq
    cases place with
    | done status answer => exact ⟨status, answer, rfl, hplace⟩
    | _ => cases hover

/-! ## Progress -/

/-- The steps that are left. -/
def Section.rank : Section → ℕ
  | .writing rest => rest.length
  | .reading r =>
    match r.place with
    | .start => 3
    | .hit => 2
    | .missed => 2
    | .got _ => 1
    | .found _ => 1
    | .done _ _ => 0

theorem protocol_ranked (host : Host) (sst : SstFormat) :
    Ranked (protocol host sst) Section.rank := by
  rintro db l db' l' hover hrun
  cases l with
  | writing rest =>
      cases rest with
      | nil => cases hover
      | cons stage rest =>
          rcases bind_eq_ok.1 hrun with ⟨db₁, -, hrun⟩
          cases hrun
          exact Nat.lt_succ_self _
  | reading r =>
      rcases r with ⟨key, out, place⟩
      rcases bind_eq_ok.1 hrun with ⟨⟨db₁, place'⟩, hstep, hrun⟩
      cases hrun
      cases place with
      | start =>
          rcases bind_eq_ok.1 hstep with ⟨-, -, hstep⟩
          split at hstep
          · cases hstep
            exact Nat.lt_succ_self _
          · cases hstep
            exact Nat.lt_succ_self _
      | hit =>
          rcases bind_eq_ok.1 hstep with ⟨⟨c, node⟩, -, hstep⟩
          cases hstep
          exact Nat.lt_succ_self _
      | got node =>
          rcases bind_eq_ok.1 hstep with ⟨p, -, hstep⟩
          rcases bind_eq_ok.1 hstep with ⟨val, -, hstep⟩
          cases hstep
          exact Nat.lt_succ_self _
      | missed =>
          rcases missed_cases hstep with
            ⟨-, ⟨val, -, rfl⟩ | ⟨-, content, -, ⟨-, rfl⟩ | ⟨val, -, rfl⟩⟩⟩
          · exact Nat.two_pos
          · exact Nat.two_pos
          · exact Nat.lt_succ_self _
      | found val =>
          rcases bind_eq_ok.1 hstep with ⟨c, -, hstep⟩
          cases hstep
          exact Nat.lt_succ_self _
      | done status answer => cases hover

/-! ## What clients can rely on -/

/-- A writer is alone under the lock; each client's calls are made once and in its
order; and the database is, but for its cache, where the writes lead that have had
the lock, one after the other in the order in which they got it, the last one as
far as it has come. -/
structure Serialised (host : Host) (sst : SstFormat) (options : Options) (disk : Disk)
    {ι : Type} [DecidableEq ι] (programs : ι → List Request) (s : Clients ι) : Prop where
  alone : ∀ i, (s.threads i).Inside (protocol host sst) true →
    ∀ j exclusive, (s.threads j).Inside (protocol host sst) exclusive → j = i
  ordered : Ordered (protocol host sst) programs s
  serial : (∀ i, ¬ (s.threads i).Inside (protocol host sst) true) →
    ∃ ws t, s.calls = ws.map Request.write ∧ serially host sst options disk ws = .ok t ∧
      s.shared = t.withCache s.shared.cache
  inside : ∀ i w before rest, (s.threads i).place = .inside (.write w) before (.writing rest) →
    ∃ ws done t t', s.calls = ws.map Request.write ++ [.write w] ∧
      serially host sst options disk ws = .ok t ∧ w.stages = done ++ rest ∧
      run (execStage host sst) t done = .ok t' ∧ s.shared = t'.withCache s.shared.cache

variable {ι : Type} [DecidableEq ι] {programs : ι → List Request} {schedule : List ι} {s : Clients ι}

theorem clients_promised
    (hrun : runClients host sst options disk programs schedule = .ok s) :
    Promised (protocol host sst) (IdleHolds host sst options disk) (WriterHolds host sst options disk)
      (ReaderHolds host sst options disk) (EndHolds host sst options disk) s := by
  refine run_promised (protocol_rule host sst options disk) ?_ hrun
  exact ⟨[], rfl, ⟨openDB options disk, _, rfl, rfl⟩, Cache.new_stocked _,
    Cache.new_holdsOnly _ _⟩

end DBImpl

open DBImpl

variable {ι : Type} [DecidableEq ι]

/-- However the stages and steps of their calls are interleaved, the clients might
have made their writes one after the other. -/
theorem clients_serialise (host : Host) (sst : SstFormat) (options : Options) (disk : Disk)
    (programs : ι → List Request) {schedule : List ι} {s : Clients ι}
    (hrun : runClients host sst options disk programs schedule = .ok s) : Serialised host sst options disk programs s := by
  have h := clients_promised hrun
  refine ⟨h.excludes.alone, run_ordered hrun, ?_, ?_⟩
  · intro hnone
    rcases h.idle hnone with ⟨ws, hcalls, hbehind⟩
    rcases hbehind.serial with ⟨t, c, ht, hshared⟩
    exact ⟨ws, t, hcalls, ht, by rw [hshared]; rfl⟩
  · intro i w before rest hplace
    rcases h.writer i _ _ _ hplace rfl with ⟨cs, hcalls, -, ws, w', rest', hcs, hw, hl, hwriting⟩
    cases hw
    cases hl
    rcases hwriting.serial with ⟨done, t, t', c, ht, hstages, hdone, -, hshared⟩
    exact ⟨ws, done, t, t', by rw [hcalls, hcs], ht, hstages, hdone, by rw [hshared]; rfl⟩

/-- A client that puts two values under "a", and one that gets them. -/
def putsAndGets (i : Fin 2) : List Request :=
  if i = 0 then [.write (.put [] (ascii "a") (ascii "x")), .write (.put [] (ascii "a") (ascii "y"))]
  else [.get (ascii "a") [], .get (ascii "a") []]

/-- The second client comes between the two writes of the first one. -/
theorem clients_serialise_two :
    ∃ s, runClients plainHost plainFormat Options.default Disk.empty putsAndGets
        [0, 0, 1, 0, 1, 0, 0, 0, 0, 1, 0, 1, 1, 0, 1, 1] = .ok s ∧
      Serialised plainHost plainFormat Options.default Disk.empty putsAndGets s := by
  have hrun : ∃ s, runClients plainHost plainFormat Options.default Disk.empty putsAndGets
      [0, 0, 1, 0, 1, 0, 0, 0, 0, 1, 0, 1, 1, 0, 1, 1] = .ok s := ⟨_, rfl⟩
  rcases hrun with ⟨s, hs⟩
  exact ⟨s, hs, clients_serialise plainHost plainFormat Options.default Disk.empty putsAndGets hs⟩

/-- A `Get` that has ended answers with a value that was the last one stored under
its C string behind some of the writes before it, or with what the file then had:
nothing comes from nowhere, and nothing from a write that had not begun. -/
theorem gets_answer (host : Host) (sst : SstFormat) (options : Options) (disk : Disk)
    (programs : ι → List Request) {schedule : List ι} {s : Clients ι}
    (hrun : runClients host sst options disk programs schedule = .ok s) {i : ι} {key out : Bytes} {before : ℕ} {l : Section}
    (hended : (.get key out, before, l) ∈ (s.threads i).ended) :
    ∃ ws status answer, s.calls.take before = ws.map Request.write ∧ before = ws.length ∧
      l = .reading ⟨key, out, .done status answer⟩ ∧
      GetAnswer host sst options disk ws key out status answer := by
  rcases (clients_promised hrun).ended i _ _ _ hended with ⟨hle, -, ws, hcalls, hget⟩
  rcases hget key out rfl with ⟨status, answer, hl, hanswer⟩
  refine ⟨ws, status, answer, hcalls, ?_, hl, hanswer⟩
  have hlength := congrArg List.length hcalls
  rw [List.length_take, List.length_map, Nat.min_eq_left hle] at hlength
  exact hlength

/-- The first `Get` of the second client ends between the two writes of the first. -/
theorem gets_answer_two :
    ∃ s l, runClients plainHost plainFormat Options.default Disk.empty putsAndGets
        [0, 0, 1, 0, 1, 0, 0, 0, 0, 1, 0, 1, 1, 0, 1, 1] = .ok s ∧
      (.get (ascii "a") [], 1, l) ∈ (s.threads 1).ended ∧
      ∃ ws status answer, s.calls.take 1 = ws.map Request.write ∧ 1 = ws.length ∧
        l = .reading ⟨ascii "a", [], .done status answer⟩ ∧
        GetAnswer plainHost plainFormat Options.default Disk.empty ws (ascii "a") [] status
          answer := by
  have hrun : ∃ s l, runClients plainHost plainFormat Options.default Disk.empty putsAndGets
      [0, 0, 1, 0, 1, 0, 0, 0, 0, 1, 0, 1, 1, 0, 1, 1] = .ok s ∧
        (.get (ascii "a") [], 1, l) ∈ (s.threads 1).ended := ⟨_, _, rfl, List.mem_cons_self⟩
  rcases hrun with ⟨s, l, hs, hended⟩
  exact ⟨s, l, hs, hended, gets_answer plainHost plainFormat Options.default Disk.empty putsAndGets
    hs hended⟩

/-- Unless a call aborts, each client comes to its end, however they take turns, if only
all of them do: and then the database is, but for its cache, where some interleaving of
all their writes leads one after the other. -/
theorem clients_finish [Fintype ι] (host : Host) (sst : SstFormat) (options : Options)
    (disk : Disk) (programs : ι → List Request) {rounds : List (List ι)} {s : Clients ι}
    (hall : ∀ round ∈ rounds, ∀ i, i ∈ round)
    (hlength : ∑ i, 7 * (programs i).length < rounds.length)
    (hrun : runClients host sst options disk programs rounds.flatten = .ok s) :
    s.Finished ∧ ∃ ws t, s.calls = ws.map Request.write ∧
      (∀ i, s.callsOf i = (programs i).filter (protocol host sst).exclusive) ∧
      serially host sst options disk ws = .ok t ∧ s.shared = t.withCache s.shared.cache := by
  have hfinished : s.Finished := by
    refine run_finishes (protocol_ranked host sst) hall (lt_of_le_of_lt ?_ hlength) hrun
    refine Finset.sum_le_sum fun i _ => ?_
    rw [Nat.mul_comm, ← smul_eq_mul, ← List.length_map (f := fun c =>
      Section.rank ((protocol host sst).start c) + 3)]
    refine List.sum_le_card_nsmul _ 7 ?_
    intro n hn
    rcases List.mem_map.1 hn with ⟨c, -, rfl⟩
    cases c with
    | write w =>
        cases w with
        | put flips key value => exact le_refl _
        | delete flips key => exact le_refl _
    | get key out => exact Nat.le_succ _
  have hserialised := clients_serialise host sst options disk programs hrun
  have hnone : ∀ i, ¬ (s.threads i).Inside (protocol host sst) true :=
    fun i => Thread.not_inside (by simp [(hfinished i).1]) true
  rcases hserialised.serial hnone with ⟨ws, t, hcalls, ht, hshared⟩
  refine ⟨hfinished, ws, t, hcalls, ?_, ht, hshared⟩
  intro i
  rcases hserialised.ordered i with ⟨hprogram, hof⟩
  rw [hof, ← hprogram]
  simp [Thread.pending, (hfinished i).1, (hfinished i).2]

/-- Twenty-nine rounds see the two of them through. -/
theorem clients_finish_two :
    ∃ s, runClients plainHost plainFormat Options.default Disk.empty putsAndGets
        (List.replicate 29 [0, 1]).flatten = .ok s ∧
      s.Finished ∧ ∃ ws t, s.calls = ws.map Request.write ∧
        (∀ i, s.callsOf i = (putsAndGets i).filter (protocol plainHost plainFormat).exclusive) ∧
        serially plainHost plainFormat Options.default Disk.empty ws = .ok t ∧
        s.shared = t.withCache s.shared.cache := by
  have hrun : ∃ s, runClients plainHost plainFormat Options.default Disk.empty putsAndGets
      (List.replicate 29 [0, 1]).flatten = .ok s := ⟨_, rfl⟩
  rcases hrun with ⟨s, hs⟩
  refine ⟨s, hs, clients_finish plainHost plainFormat Options.default Disk.empty putsAndGets
    ?_ (by decide) hs⟩
  intro round hround i
  rw [List.eq_of_mem_replicate hround]
  fin_cases i <;> simp

end Smallkv
