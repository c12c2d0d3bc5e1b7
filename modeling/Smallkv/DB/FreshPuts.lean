import Smallkv.DB.Clients
import Smallkv.Table.SSTParser

/-!
# DB.FreshPuts — `Get`s that see the last write

The cache keeps the first value it is given for a key, so a second `Put` is not
seen by anyone as long as the key stays there. Clients that delete a key before
they put another value under it do not meet this: with the tables of the code,
which never answer, each `Get` that ends has read what was stored last when it
was let in (`gets_linearizable`), however the calls are interleaved.
-/

namespace Smallkv

open Fallible SharedMutex Assoc

namespace DBImpl

/-- The value under a C string, if the last write to it was a `Put`. -/
def lastPut (ws : List Write) (k : Bytes) : Option Bytes :=
  match ws.reverse.find? fun w => cString w.key = k with
  | some (.put _ _ value) => some (cString value)
  | _ => none

/-- No `Put` finds another value where it stores its own. -/
def FreshPuts (ws : List Write) : Prop :=
  ∀ before flips key value, before ++ [.put flips key value] <+: ws →
    lastPut before (cString key) = none ∨ lastPut before (cString key) = some (cString value)

variable {ws : List Write} {w : Write} {k v : Bytes}

theorem lastPut_put (ws : List Write) (flips : List Bool) (key value : Bytes) :
    lastPut (ws ++ [.put flips key value]) =
      Function.update (lastPut ws) (cString key) (some (cString value)) := by
  funext k
  rw [Function.update_apply]
  by_cases hk : cString key = k
  · simp [lastPut, Write.key, hk]
  · have hk' : ¬ k = cString key := fun heq => hk heq.symm
    simp [lastPut, Write.key, hk, hk']

theorem lastPut_delete (ws : List Write) (flips : List Bool) (key : Bytes) :
    lastPut (ws ++ [.delete flips key]) = Function.update (lastPut ws) (cString key) none := by
  funext k
  rw [Function.update_apply]
  by_cases hk : cString key = k
  · simp [lastPut, Write.key, hk]
  · have hk' : ¬ k = cString key := fun heq => hk heq.symm
    simp [lastPut, Write.key, hk, hk']

theorem lastPut_submap (ws : List Write) : Submap (lastPut ws) (lastStored ws) := by
  induction ws using List.reverseRecOn with
  | nil =>
      intro k v h
      cases h
  | append_singleton ws w ih =>
      rw [lastStored_concat]
      cases w with
      | put flips key value =>
          rw [lastPut_put]
          exact ih.update _ _
      | delete flips key =>
          rw [lastPut_delete]
          intro k v h
          have hne : k ≠ cString key := by
            rintro rfl
            rw [Function.update_self] at h
            cases h
          rw [Function.update_of_ne hne] at h
          exact (Function.update_of_ne hne _ _).trans (ih k v h)

theorem FreshPuts.of_concat (h : FreshPuts (ws ++ [w])) : FreshPuts ws :=
  fun before flips key value hpre => h before flips key value (hpre.trans (List.prefix_append _ _))

theorem freshPuts_nil : FreshPuts [] := by
  intro before flips key value hpre
  have hlength := hpre.length_le
  simp at hlength

theorem FreshPuts.concat (h : FreshPuts ws) (hw : ∀ flips key value, w = .put flips key value →
    lastPut ws (cString key) = none ∨ lastPut ws (cString key) = some (cString value)) :
    FreshPuts (ws ++ [w]) := by
  intro before flips key value hpre
  rcases List.prefix_concat_iff.1 hpre with heq | hpre
  · rcases List.append_inj' heq rfl with ⟨rfl, hput⟩
    exact hw flips key value (List.singleton_inj.1 hput).symm
  · exact h before flips key value hpre

/-! ## The cache has nothing but current values -/

variable {host : Host} {fm : FloatMath} {options : Options} {disk : Disk} {db db' : DBImpl}
  {c c' : Cache Bytes Bytes} {key out : Bytes}

/-- What the cache has for a key is what was put last. -/
def Current (host : Host) (ws : List Write) (c : Cache Bytes Bytes) : Prop :=
  ∃ cap cached, c.Represents host.hash cap cached ∧ Submap cached (lastPut ws)

/-- What a write makes of the cache keeps it so. -/
theorem cacheAfter_current {cap : ℕ} {cached cached' : Bytes → Option Bytes}
    (hsub : Submap cached (lastPut ws)) (hfresh : FreshPuts (ws ++ [w]))
    (hcache : CacheAfter cap cached cached' w) : Submap cached' (lastPut (ws ++ [w])) := by
  cases w with
  | put flips key value =>
      rw [lastPut_put]
      cases hkey : cached (cString key) with
      | none =>
          have hins := hcache.submap
          rw [insertMap_of_none hkey] at hins
          intro k v hk
          exact hsub.update _ _ k v (hins k v hk)
      | some u =>
          -- the value that is there stays, and it is the same
          have hput : lastPut ws (cString key) = some (cString value) := by
            have hsome := hsub _ _ hkey
            rcases hfresh ws flips key value (List.prefix_refl _) with hnone | heq
            · rw [hsome] at hnone
              cases hnone
            · exact heq
          rw [hcache.present (by simp [hkey]), ← hput, Function.update_eq_self]
          exact hsub
  | delete flips key =>
      have herase : cached' = Function.update cached (cString key) none := hcache
      rw [lastPut_delete, herase]
      intro k v hk
      rw [Function.update_apply] at hk ⊢
      split at hk
      · cases hk
      · rename_i hne
        rw [if_neg hne]
        exact hsub k v hk

theorem Current.insert (h : Current host ws c) {flips : List Bool} {key value : Bytes}
    (hfresh : FreshPuts (ws ++ [.put flips key value]))
    (hrun : c.insert host.hash (cString key) (cString value) = .ok c') :
    Current host (ws ++ [.put flips key value]) c' := by
  rcases h with ⟨cap, cached, hc, hsub⟩
  rcases hc.insert (cString key) (cString value) with ⟨c₁, cached', hrun₁, hc₁, hins, hnew, hold⟩
  obtain rfl : c₁ = c' := Except.ok.inj (hrun₁.symm.trans hrun)
  have hcache : CacheInsert cap (cString key) (cString value) cached cached' := ⟨hins, hnew, hold⟩
  exact ⟨cap, cached', hc₁, cacheAfter_current hsub hfresh hcache⟩

theorem Current.erase (h : Current host ws c) {flips : List Bool} {key : Bytes}
    (hfresh : FreshPuts (ws ++ [.delete flips key]))
    (hrun : c.erase host.hash (cString key) = .ok c') :
    Current host (ws ++ [.delete flips key]) c' := by
  rcases h with ⟨cap, cached, hc, hsub⟩
  rcases hc.erase (cString key) with ⟨c₁, hrun₁, hc₁⟩
  obtain rfl : c₁ = c' := Except.ok.inj (hrun₁.symm.trans hrun)
  have hcache : CacheAfter cap cached (Function.update cached (cString key) none)
      (.delete flips key) := rfl
  exact ⟨cap, _, hc₁, cacheAfter_current hsub hfresh hcache⟩

/-- What `get` hands out is current. -/
theorem Current.get (h : Current host ws c) (hstocked : c.Stocked) {p : Ptr}
    (hrun : c.get host.hash (cString key) = .ok (c', some p)) :
    Current host ws c' ∧ LRU.Pinned (fun _ v => lastStored ws (cString key) = some v)
      (c'.caches (Cache.shardingIndex host.hash (cString key))) p := by
  rcases h with ⟨cap, cached, hc, hsub⟩
  have hcontains := Cache.get_isSome hstocked hrun
  rw [hc.contains] at hcontains
  rcases Option.isSome_iff_exists.1 hcontains.symm with ⟨val, hval⟩
  rcases hc.get hval with ⟨c₁, node, hrun₁, hat, hc₁⟩
  have heq := Except.ok.inj (hrun₁.symm.trans hrun)
  obtain rfl : c₁ = c' := congrArg Prod.fst heq
  obtain rfl : node = p := Option.some.inj (congrArg Prod.snd heq)
  refine ⟨⟨cap, cached, hc₁, hsub⟩, ?_⟩
  rcases bind_eq_ok.1 hat with ⟨n, hload, hat⟩
  cases hat
  rw [orFail_eq_ok] at hload
  refine ⟨Arena.lt_fresh hload, ?_⟩
  intro n' hload'
  rw [hload] at hload'
  cases hload'
  exact lastPut_submap ws _ _ (hsub _ _ hval)

/-- With the tables of the code a `Get` that returns has found its key in the first two
tiers. -/
theorem get_held {mem cached : Bytes → Option Bytes} {answer : Bytes} {status : DBStatus}
    (h : Tracks host db mem cached)
    (hget : db.get host (sstFormat fm) key out = .ok (db', status, answer)) :
    Tracks host db' mem cached ∧ status = Status.success ∧
      (cached (cString key)).or (mem (cString key)) = some answer := by
  rcases get_cases h hget with ⟨-, hheld | ⟨-, -, content, -, ⟨hseek, -⟩ | ⟨val, _, hseek, -⟩⟩⟩
  · exact hheld
  · exact absurd hseek (sstFormat_seek_ne_ok fm content key none)
  · exact absurd hseek (sstFormat_seek_ne_ok fm content key (some val))

/-! ## The rule once more -/

/-- The stages that call the cache. -/
def Stage.CallsCache : Stage → Prop
  | .putCache _ _ => True
  | .eraseCache _ => True
  | _ => False

/-- A stage of no concern to the cache. -/
theorem execStage_cache {sst : SstFormat} {stage : Stage} (hnot : ¬ stage.CallsCache)
    (hrun : db.execStage host sst stage = .ok db') : db'.cache = db.cache := by
  cases stage with
  | log key value => exact writeLog_cache hrun
  | putMemTable flips key value => exact putMemTable_cache hrun
  | deleteMemTable flips key => exact deleteMemTable_cache hrun
  | putCache key value => exact absurd trivial hnot
  | eraseCache key => exact absurd trivial hnot
  | flush => exact flushIfFull_cache hrun

/-- A writer is inside: up to its cache stage the cache is that of the writes before
it. -/
structure WritingCurrent (host : Host) (ws : List Write) (w : Write) (rest : List Stage)
    (c : Cache Bytes Bytes) : Prop where
  suffix : rest <:+ w.stages
  before : (∃ stage ∈ rest, stage.CallsCache) → Current host ws c
  behind : (∀ stage ∈ rest, ¬ stage.CallsCache) → Current host (ws ++ [w]) c

theorem Current.enter (h : Current host ws c) (w : Write) :
    WritingCurrent host ws w w.stages c where
  suffix := List.suffix_refl _
  before := fun _ => h
  behind := by
    intro hnone
    cases w with
    | put flips key value =>
        exact absurd trivial (hnone (.putCache key value) (by simp [Write.stages, Write.steps]))
    | delete flips key =>
        exact absurd trivial (hnone (.eraseCache key) (by simp [Write.stages, Write.steps]))

/-- The cache stage of a write is its last but one. -/
theorem Write.cacheStage_of_suffix {stage : Stage} {rest : List Stage}
    (hsuffix : stage :: rest <:+ w.stages) (hcalls : stage.CallsCache) :
    rest = [.flush] ∧ ((∃ flips key value, w = .put flips key value ∧ stage = .putCache key value) ∨
      ∃ flips key, w = .delete flips key ∧ stage = .eraseCache key) := by
  cases w with
  | put flips key value =>
      simp only [Write.stages, Write.steps, List.cons_append, List.nil_append,
        List.suffix_cons_iff, List.suffix_nil, List.cons.injEq, reduceCtorEq, or_false] at hsuffix
      rcases hsuffix with ⟨rfl, -⟩ | ⟨rfl, -⟩ | ⟨rfl, hrest⟩ | ⟨rfl, -⟩
      · exact absurd hcalls id
      · exact absurd hcalls id
      · exact ⟨hrest, Or.inl ⟨flips, key, value, rfl, rfl⟩⟩
      · exact absurd hcalls id
  | delete flips key =>
      simp only [Write.stages, Write.steps, List.cons_append, List.nil_append,
        List.suffix_cons_iff, List.suffix_nil, List.cons.injEq, reduceCtorEq, or_false] at hsuffix
      rcases hsuffix with ⟨rfl, -⟩ | ⟨rfl, -⟩ | ⟨rfl, hrest⟩ | ⟨rfl, -⟩
      · exact absurd hcalls id
      · exact absurd hcalls id
      · exact ⟨hrest, Or.inr ⟨flips, key, rfl, rfl⟩⟩
      · exact absurd hcalls id

theorem WritingCurrent.step {sst : SstFormat} {stage : Stage} {rest : List Stage}
    (h : WritingCurrent host ws w (stage :: rest) db.cache) (hfresh : FreshPuts (ws ++ [w]))
    (hrun : db.execStage host sst stage = .ok db') : WritingCurrent host ws w rest db'.cache := by
  have hsuffix : rest <:+ w.stages := (List.suffix_cons stage rest).trans h.suffix
  by_cases hcalls : stage.CallsCache
  · have hcurrent := h.before ⟨stage, List.mem_cons_self, hcalls⟩
    rcases Write.cacheStage_of_suffix h.suffix hcalls with ⟨rfl, hstage⟩
    refine ⟨hsuffix, ?_, ?_⟩
    · rintro ⟨stage', hmem, hcalls'⟩
      rw [List.mem_singleton] at hmem
      subst hmem
      exact absurd hcalls' id
    · intro _
      rcases hstage with ⟨flips, key, value, rfl, rfl⟩ | ⟨flips, key, rfl, rfl⟩
      · rcases bind_eq_ok.1 hrun with ⟨c', hins, hrun⟩
        cases hrun
        exact hcurrent.insert hfresh hins
      · rcases bind_eq_ok.1 hrun with ⟨c', her, hrun⟩
        cases hrun
        exact hcurrent.erase hfresh her
  · rw [execStage_cache hcalls hrun]
    refine ⟨hsuffix, ?_, ?_⟩
    · rintro ⟨stage', hmem, hcalls'⟩
      exact h.before ⟨stage', List.mem_cons_of_mem _ hmem, hcalls'⟩
    · intro hnone
      refine h.behind ?_
      intro stage' hmem
      rcases List.mem_cons.1 hmem with rfl | hmem
      · exact hcalls
      · exact hnone stage' hmem

/-- What a reader has in hand was stored last. -/
def PlaceCurrent (host : Host) (ws : List Write) (key : Bytes) (db : DBImpl) : Place → Prop
  | .got (some p) =>
    LRU.Pinned (fun _ v => lastStored ws (cString key) = some v)
      (db.cache.caches (Cache.shardingIndex host.hash (cString key))) p
  | .found _ => False
  | .done status answer => status = Status.success ∧ lastStored ws (cString key) = some answer
  | _ => True

theorem PlaceCurrent.evolves {Q : Bytes → Bytes → Prop} {place : Place}
    (h : PlaceCurrent host ws key db place) (hevolves : Cache.Evolves Q db.cache db'.cache) :
    PlaceCurrent host ws key db' place := by
  cases place with
  | got node =>
      cases node with
      | none => trivial
      | some p =>
          simp only [PlaceCurrent] at h ⊢
          exact (hevolves _).pinned h
  | start => trivial
  | hit => trivial
  | missed => trivial
  | found val => exact h
  | done status answer => exact h

/-- A step of a reader on a cache of current values. -/
theorem Current.step (h : Current host ws db.cache)
    (hbehind : Behind host (sstFormat fm) options disk ws db) {place place' : Place}
    (hplace : PlaceCurrent host ws key db place)
    (hrun : Reader.step host (sstFormat fm) db ⟨key, out, place⟩ = .ok (db', place')) :
    Current host ws db'.cache ∧ PlaceCurrent host ws key db' place' := by
  cases place with
  | start =>
      rcases bind_eq_ok.1 hrun with ⟨-, -, hrun⟩
      split at hrun
      · cases hrun
        exact ⟨h, trivial⟩
      · cases hrun
        exact ⟨h, trivial⟩
  | hit =>
      rcases bind_eq_ok.1 hrun with ⟨⟨c, node⟩, hget, hrun⟩
      cases hrun
      cases node with
      | none =>
          obtain rfl : c = db.cache := Cache.get_none hget
          exact ⟨h, trivial⟩
      | some p => exact h.get hbehind.stocked hget
  | got node =>
      rcases bind_eq_ok.1 hrun with ⟨p, hnode, hrun⟩
      rcases bind_eq_ok.1 hrun with ⟨val, hval, hrun⟩
      cases hrun
      rw [orFail_eq_ok] at hnode
      subst hnode
      simp only [PlaceCurrent] at hplace
      rcases Cache.valueAt_pinned hplace hval with ⟨-, hlast⟩
      exact ⟨h, rfl, hlast⟩
  | missed =>
      rcases missed_cases hrun with ⟨rfl, hmissed⟩
      refine ⟨h, ?_⟩
      rcases hmissed with ⟨val, hget, rfl⟩ | ⟨-, content, -, ⟨hseek, -⟩ | ⟨val, hseek, -⟩⟩
      · rcases hbehind.serial with ⟨t, c, ht, rfl⟩
        refine ⟨rfl, ?_⟩
        rcases serially_memTable ht with ⟨mem, hmem, hsub⟩
        have hval : mem (cString (cString key)) = some val :=
          Except.ok.inj ((hmem.get (cString key)).symm.trans hget)
        rw [cString_cString] at hval
        exact hsub _ _ hval
      · exact absurd hseek (sstFormat_seek_ne_ok fm content key none)
      · exact absurd hseek (sstFormat_seek_ne_ok fm content key (some val))
  | found val => exact absurd hplace id
  | done status answer =>
      cases hrun
      exact ⟨h, hplace⟩

/-! ## Putting it together -/

def IdleCurrent (host : Host) (fm : FloatMath) (options : Options) (disk : Disk) (cs : List Request)
    (db : DBImpl) : Prop :=
  ∃ ws, cs = ws.map Request.write ∧ Behind host (sstFormat fm) options disk ws db ∧
    (FreshPuts ws → Current host ws db.cache)

def WriterCurrent (host : Host) (fm : FloatMath) (options : Options) (disk : Disk)
    (cs : List Request) (c : Request) (db : DBImpl) (l : Section) : Prop :=
  ∃ ws w rest, cs = ws.map Request.write ∧ c = .write w ∧ l = .writing rest ∧
    Writing host (sstFormat fm) options disk ws w rest db ∧
    (FreshPuts (ws ++ [w]) → WritingCurrent host ws w rest db.cache)

def ReaderCurrent (host : Host) (fm : FloatMath) (options : Options) (disk : Disk)
    (cs : List Request) (c : Request) (db : DBImpl) (l : Section) : Prop :=
  ∃ ws key out place, cs = ws.map Request.write ∧ c = .get key out ∧ l = .reading ⟨key, out, place⟩ ∧
    PlaceHolds host (sstFormat fm) options disk ws key out db place ∧
    (FreshPuts ws → PlaceCurrent host ws key db place)

def EndCurrent (cs : List Request) (c : Request) (l : Section) : Prop :=
  ∃ ws, cs = ws.map Request.write ∧ (FreshPuts ws → ∀ key out, c = .get key out →
    ∃ answer, l = .reading ⟨key, out, .done Status.success answer⟩ ∧
      lastStored ws (cString key) = some answer)

theorem protocol_current (host : Host) (fm : FloatMath) (options : Options) (disk : Disk) :
    Rule (protocol host (sstFormat fm)) (IdleCurrent host fm options disk)
      (WriterCurrent host fm options disk) (ReaderCurrent host fm options disk) EndCurrent where
  writer_enter := by
    rintro cs c db hmode ⟨ws, rfl, h, hcurrent⟩
    cases c with
    | write w =>
        exact ⟨ws, w, _, rfl, rfl, rfl, h.enter w, fun hfresh => (hcurrent hfresh.of_concat).enter w⟩
    | get key out => cases hmode
  writer_step := by
    rintro cs c db db' l l' - ⟨ws, w, rest, rfl, rfl, rfl, h, hcurrent⟩ - hrun
    cases rest with
    | nil =>
        cases hrun
        exact ⟨ws, w, [], rfl, rfl, rfl, h, hcurrent⟩
    | cons stage rest =>
        rcases bind_eq_ok.1 hrun with ⟨db₁, hstage, hrun⟩
        cases hrun
        exact ⟨ws, w, rest, rfl, rfl, rfl, h.step hstage,
          fun hfresh => (hcurrent hfresh).step hfresh hstage⟩
  writer_leave := by
    rintro cs c db l - ⟨ws, w, rest, rfl, rfl, rfl, h, hcurrent⟩ hover
    obtain rfl : rest = [] := by simpa [protocol] using hover
    refine ⟨⟨ws ++ [w], by simp, h.leave, fun hfresh => (hcurrent hfresh).behind (by simp)⟩, ws,
      rfl, ?_⟩
    intro _ key out hget
    cases hget
  reader_enter := by
    rintro cs c db hmode ⟨ws, rfl, -⟩
    cases c with
    | write w => cases hmode
    | get key out => exact ⟨ws, key, out, .start, rfl, rfl, rfl, trivial, fun _ => trivial⟩
  reader_step := by
    rintro cs c db db' l l' - ⟨ws, hcs, h, hcurrent⟩
      ⟨ws', key, out, place, rfl, rfl, rfl, hplace, hcurrent'⟩ - hrun
    obtain rfl : ws = ws' := request_write_injective hcs.symm
    rcases bind_eq_ok.1 hrun with ⟨⟨db₁, place'⟩, hstep, hrun⟩
    cases hrun
    rcases h.step hplace hstep with ⟨h', hplace', hevolves⟩
    have hafter := fun hfresh => (hcurrent hfresh).step h (hcurrent' hfresh) hstep
    refine ⟨⟨ws, rfl, h', fun hfresh => (hafter hfresh).1⟩,
      ⟨ws, key, out, place', rfl, rfl, rfl, hplace', fun hfresh => (hafter hfresh).2⟩, ?_⟩
    rintro c₂ l₂ ⟨ws₂, key₂, out₂, place₂, hws₂, rfl, rfl, h₂, hcurrent₂⟩
    exact ⟨ws₂, key₂, out₂, place₂, hws₂, rfl, rfl, h₂.evolves hevolves,
      fun hfresh => (hcurrent₂ hfresh).evolves hevolves⟩
  reader_leave := by
    rintro cs c db l - ⟨ws, key, out, place, rfl, rfl, rfl, -, hcurrent⟩ hover
    refine ⟨ws, rfl, ?_⟩
    intro hfresh key' out' heq
    cases heq
    cases place with
    | done status answer =>
        rcases hcurrent hfresh with ⟨rfl, hlast⟩
        exact ⟨answer, rfl, hlast⟩
    | _ => cases hover

/-! ## One client -/

/-- The same of calls that come one after the other. -/
theorem run_current {ops : List Op}
    (hrun : run (step host (sstFormat fm)) (openDB options disk) ops = .ok db)
    (hfresh : FreshPuts (writes ops)) :
    ∃ mem cached, Tracks host db mem cached ∧ Submap mem (lastStored (writes ops)) ∧
      Submap cached (lastPut (writes ops)) := by
  induction ops using List.reverseRecOn generalizing db with
  | nil =>
      cases hrun
      exact ⟨_, _, openDB_tracks host options disk, submap_empty _, submap_empty _⟩
  | append_singleton ops op ih =>
      rcases run_concat_ok.1 hrun with ⟨db₀, hrun₀, hstep⟩
      cases op with
      | get key =>
          rw [writes_concat_get] at hfresh ⊢
          rcases ih hrun₀ hfresh with ⟨mem, cached, h, hmem, hcached⟩
          rcases bind_eq_ok.1 hstep with ⟨⟨dbGet, status, out⟩, hget, hstep⟩
          cases hstep
          exact ⟨mem, cached, (get_held h hget).1, hmem, hcached⟩
      | write w =>
          rw [writes_concat_write] at hfresh ⊢
          rcases ih hrun₀ hfresh.of_concat with ⟨mem, cached, h, hmem, hcached⟩
          rcases write_cases h hstep with ⟨db₁, cached₁, -, h₁, hcache, -, hflush⟩
          have hcached₁ := cacheAfter_current hcached hfresh hcache
          rcases hflush with ⟨-, rfl⟩ | ⟨-, f, hf, hnew⟩
          · refine ⟨_, cached₁, h₁, ?_, hcached₁⟩
            rw [lastStored_concat]
            exact hmem.update _ _
          · exact ⟨_, cached₁, hf.tracks hnew h₁, submap_empty _, hcached₁⟩

/-- What one client reads that puts nothing over another value. -/
theorem run_get_current {ops : List Op}
    (hrun : run (step host (sstFormat fm)) (openDB options disk) ops = .ok db)
    (hfresh : FreshPuts (writes ops)) {answer : Bytes} {status : DBStatus}
    (hget : db.get host (sstFormat fm) key out = .ok (db', status, answer)) :
    status = Status.success ∧ lastStored (writes ops) (cString key) = some answer := by
  rcases run_current hrun hfresh with ⟨mem, cached, h, hmem, hcached⟩
  rcases get_held h hget with ⟨-, hstatus, hheld⟩
  refine ⟨hstatus, ?_⟩
  rcases Option.or_eq_some_iff.1 hheld with hc | ⟨-, hm⟩
  · exact lastPut_submap _ _ _ (hcached _ _ hc)
  · exact hmem _ _ hm

end DBImpl

open DBImpl

/-- However the calls are interleaved: as long as clients put no value where another
one was put and not deleted, each `Get` that has ended succeeded, with the value
that the writes which had the lock before it stored last. -/
theorem gets_linearizable (host : Host) (fm : FloatMath) (options : Options) (disk : Disk)
    {ι : Type} [DecidableEq ι] (programs : ι → List Request) {schedule : List ι} {s : Clients ι}
    (hrun : runClients host (sstFormat fm) options disk programs schedule = .ok s)
    {ws : List Write} (hcalls : s.calls = ws.map Request.write) (hfresh : FreshPuts ws) {i : ι}
    {key out : Bytes} {before : ℕ} {l : Section}
    (hended : (.get key out, before, l) ∈ (s.threads i).ended) :
    ∃ answer, l = .reading ⟨key, out, .done Status.success answer⟩ ∧
      lastStored (ws.take before) (cString key) = some answer := by
  have h := run_promised (protocol_current host fm options disk)
    ⟨[], rfl, ⟨⟨openDB options disk, _, rfl, rfl⟩, Cache.new_stocked _, Cache.new_holdsOnly _ _⟩,
      fun _ => ⟨_, _, Cache.new_represents host.hash options.cacheSize, submap_empty _⟩⟩ hrun
  rcases h.ended i _ _ _ hended with ⟨-, -, ws', hcalls', hend⟩
  rw [hcalls, ← List.map_take] at hcalls'
  obtain rfl : ws.take before = ws' := request_write_injective hcalls'
  refine hend ?_ key out rfl
  intro prior flips key value hpre
  exact hfresh prior flips key value (hpre.trans (List.take_prefix _ _))

/-- A client that deletes "a" before it puts another value under it. -/
def deletesAndGets (i : ℕ) : List Request :=
  if i = 0 then
    [.write (.put [] (ascii "a") (ascii "x")), .write (.delete [] (ascii "a")),
      .write (.put [] (ascii "a") (ascii "y"))]
  else [.get (ascii "a") []]

/-- The `Get` comes in behind all three writes. -/
theorem gets_linearizable_deleted :
    ∃ s l, runClients plainHost (sstFormat decimalMath) Options.default Disk.empty deletesAndGets
        ([1] ++ List.replicate 21 0 ++ [1, 1, 1, 1, 1]) = .ok s ∧
      (.get (ascii "a") [], 3, l) ∈ (s.threads 1).ended ∧
      ∃ answer, l = .reading ⟨ascii "a", [], .done Status.success answer⟩ ∧
        lastStored ([.put [] (ascii "a") (ascii "x"), .delete [] (ascii "a"),
          .put [] (ascii "a") (ascii "y")] : List Write) (cString (ascii "a")) = some answer := by
  have hrun : ∃ s l, runClients plainHost (sstFormat decimalMath) Options.default Disk.empty
      deletesAndGets ([1] ++ List.replicate 21 0 ++ [1, 1, 1, 1, 1]) = .ok s ∧
        s.calls = ([.put [] (ascii "a") (ascii "x"), .delete [] (ascii "a"),
          .put [] (ascii "a") (ascii "y")] : List Write).map Request.write ∧
        (.get (ascii "a") [], 3, l) ∈ (s.threads 1).ended :=
    ⟨_, _, rfl, rfl, List.mem_cons_self⟩
  rcases hrun with ⟨s, l, hs, hcalls, hended⟩
  refine ⟨s, l, hs, hended, gets_linearizable plainHost decimalMath Options.default Disk.empty
    deletesAndGets hs hcalls ?_ hended⟩
  refine ((freshPuts_nil.concat ?_).concat ?_).concat ?_
  · intro flips key value _
    exact Or.inl rfl
  · intro flips key value h
    cases h
  · intro flips key value h
    cases h
    exact Or.inl rfl

end Smallkv
