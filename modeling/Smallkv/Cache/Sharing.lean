import Smallkv.Cache.Sections
import Smallkv.Cache.Shards
import Smallkv.Lib.Striped

/-!
# Cache.Sharing — the cache between threads

Every shard has a lock of its own, so a method waits for those on its shard and
goes along with those on the others. Nevertheless the threads see one cache, on
which whole methods are made one after the other (`calls_linearize`), and no
method but `release` can fail or be kept waiting for good (`calls_return`).
-/

namespace Smallkv

open Fallible

namespace LRU

variable {K V : Type}

def Method.key : Method K V → K
  | .insert key _ => key
  | .erase key => key
  | .get key => key
  | .contains key => key
  | .release key => key

def Method.isRelease : Method K V → Bool
  | .release _ => true
  | _ => false

def Pc.answer : Pc K V → Option Answer
  | .done a => some a
  | _ => none

/-- The steps that a method can still have before it. -/
def Pc.rank : Pc K V → ℕ
  | .insert _ _ => 12
  | .link _ _ => 11
  | .indexNew _ _ => 10
  | .trim => 9
  | .indexMoved _ _ => 1
  | .erase _ => 9
  | .get _ => 3
  | .indexGot _ _ => 2
  | .ref _ => 1
  | .contains _ => 1
  | .release _ => 5
  | .mark _ => 8
  | .unlink _ => 7
  | .unindex _ => 6
  | .station _ => 5
  | .unref _ => 4
  | .destruct _ => 3
  | .forget _ => 2
  | .delete _ => 1
  | .done _ => 0

variable [DecidableEq K]

/-- Each step takes a method nearer to its end. -/
theorem micro_rank {l l' : LRU K V} {pc pc' : Pc K V} (hanswer : pc.answer = none)
    (hstep : l.micro pc = .ok (l', pc')) : pc'.rank < pc.rank := by
  cases pc with
  | insert key val =>
      cases hstep
      simp [Pc.rank]
  | link key p =>
      simp only [micro] at hstep
      split at hstep
      · cases hstep
        simp [Pc.rank]
      · cases hstep
        simp [Pc.rank]
  | indexNew key p =>
      cases hstep
      simp [Pc.rank]
  | trim =>
      simp only [micro] at hstep
      split at hstep
      · rcases bind_eq_ok.1 hstep with ⟨p, -, hstep⟩
        cases hstep
        simp [Pc.rank]
      · cases hstep
        simp [Pc.rank]
  | indexMoved key iter =>
      cases hstep
      simp [Pc.rank]
  | erase key =>
      simp only [micro] at hstep
      split at hstep
      · cases hstep
        simp [Pc.rank]
      · cases hstep
        simp [Pc.rank]
  | get key =>
      simp only [micro] at hstep
      split at hstep
      · cases hstep
        simp [Pc.rank]
      · cases hstep
        simp [Pc.rank]
  | indexGot key iter =>
      cases hstep
      simp [Pc.rank]
  | contains key =>
      cases hstep
      simp [Pc.rank]
  | unref p =>
      rcases bind_eq_ok.1 hstep with ⟨node, -, hstep⟩
      dsimp only at hstep
      split at hstep
      · cases hstep
        simp [Pc.rank]
      · cases hstep
        simp [Pc.rank]
  | unlink p =>
      rcases bind_eq_ok.1 hstep with ⟨node, -, hstep⟩
      rcases bind_eq_ok.1 hstep with ⟨iter, -, hstep⟩
      cases hstep
      simp [Pc.rank]
  | delete p =>
      cases hstep
      simp [Pc.rank]
  | done a => cases hanswer
  | _ =>
      -- a node or an iterator is loaded first
      rcases bind_eq_ok.1 hstep with ⟨x, -, hstep⟩
      cases hstep
      simp [Pc.rank]

omit [DecidableEq K] in
theorem start_rank (c : Method K V) : c.start.rank ≤ 12 := by
  cases c <;> simp [Method.start, Pc.rank]

/-- A method other than `release` succeeds on a shelf, and leaves one. -/
theorem method_shelved {l : LRU K V} (h : ∃ s, Shelved l s) {c : Method K V}
    (hc : c.isRelease = false) :
    ∃ l' a, l.method c = .ok (l', a) ∧ ∃ s, Shelved l' s := by
  rcases h with ⟨s, hs⟩
  cases c with
  | insert key val =>
      rcases insert_shelved hs key val with ⟨l', hl', hs', -⟩
      exact ⟨l', .void, by simp only [method, hl', ok_bind, pure_eq_ok], _, hs'⟩
  | erase key =>
      rcases erase_shelved hs key with ⟨l', hl', hs', -⟩
      exact ⟨l', .void, by simp only [method, hl', ok_bind, pure_eq_ok], _, hs'⟩
  | get key =>
      rcases get_shelved hs key with ⟨l', hl', hs', -⟩
      exact ⟨l', _, by simp only [method, hl', ok_bind, pure_eq_ok]; rfl, _, hs'⟩
  | contains key => exact ⟨l, _, rfl, s, hs⟩
  | release key => cases hc

end LRU

namespace Cache

open LRU (Method Answer Pc)

variable {K V : Type} [DecidableEq K]

def release (hash : K → ℕ) (c : Cache K V) (key : K) : Exec (Cache K V) := do
  let i := shardingIndex hash key
  let l ← (c.caches i).release key
  pure (c.setShard i l)

/-- A method of the cache. -/
def call (hash : K → ℕ) (c : Cache K V) : Method K V → Exec (Cache K V × Answer)
  | .insert key val => do
    let c ← c.insert hash key val
    pure (c, .void)
  | .erase key => do
    let c ← c.erase hash key
    pure (c, .void)
  | .get key => do
    let (c, p) ← c.get hash key
    pure (c, .node p)
  | .contains key => pure (c, .bool (c.contains hash key))
  | .release key => do
    let c ← c.release hash key
    pure (c, .void)

/-- The methods under the locks of the shards. -/
def sections (hash : K → ℕ) :
    Striped.Sections Fault (Fin kShardingNum) (LRU K V) (Method K V) (Pc K V) Answer where
  part m := shardingIndex hash m.key
  start := Method.start
  result := Pc.answer
  step := LRU.micro

theorem sections_whole (hash : K → ℕ) :
    Striped.Whole (sections hash : Striped.Sections Fault _ (LRU K V) _ _ _) LRU.method
      LRU.remaining where
  start := LRU.remaining_start
  step l pc _ := LRU.micro_remaining l pc
  through l pc a hresult := by
    cases pc with
    | done b =>
        cases hresult
        rfl
    | _ => cases hresult

/-- A method of the cache is the method on the shard of its key. -/
theorem call_eq_onPart (hash : K → ℕ) (f : Fin kShardingNum → LRU K V) (m : Method K V) :
    call hash ⟨f⟩ m =
      Striped.onPart (sections hash) LRU.method f m >>= fun r => pure (⟨r.1⟩, r.2) := by
  cases m with
  | contains key => simp [call, Striped.onPart, sections, LRU.method, Cache.contains, Method.key]
  | _ => simp [call, Striped.onPart, sections, LRU.method, Method.key, Cache.insert, Cache.erase,
      Cache.get, release, setShard]

theorem transcript_call {hash : K → ℕ} {f g : Fin kShardingNum → LRU K V} {ms : List (Method K V)}
    {as : List Answer}
    (h : Striped.transcript (Striped.onPart (sections hash) LRU.method) f ms = .ok (g, as)) :
    Striped.transcript (call hash) ⟨f⟩ ms = .ok (⟨g⟩, as) := by
  induction ms generalizing f as with
  | nil =>
      cases h
      rfl
  | cons m ms ih =>
      rcases bind_eq_ok.1 h with ⟨⟨f₁, a⟩, hm, hms⟩
      rcases bind_eq_ok.1 hms with ⟨⟨g', as'⟩, hrest, heq⟩
      cases heq
      simp only [Striped.transcript, call_eq_onPart, hm, ok_bind, pure_eq_ok, ih hrest]

variable {ι : Type} [DecidableEq ι]

/-- Threads that call the methods of the cache, each step of theirs at any time:
every thread has its calls made once and in its order; the methods that have
returned gave the answers that they give one after the other, in the order in which
they returned and over all shards; this leaves every shard as it is that nobody is
inside of; and who has to wait waits for a method on his own shard. -/
theorem calls_linearize (hash : K → ℕ) (cap : ℕ) (programs : ι → List (Method K V))
    {schedule : List ι}
    {s : Striped.State ι (Fin kShardingNum) (LRU K V) (Method K V) (Pc K V) Answer}
    (hrun : run (Striped.act (sections hash))
      (Striped.State.start (new cap).caches programs) schedule = .ok s) :
    Striped.Ordered programs s ∧
      (∃ c, Striped.transcript (call hash) (new cap) s.calls = .ok (c, s.answers) ∧
        ∀ k, (∀ i, ¬ (s.threads i).In (sections hash) k) → s.shared k = c.caches k) ∧
      ∀ i m, (s.threads i).place = .waiting m → Striped.act (sections hash) s i = .ok s →
        ∃ j m' pc, (s.threads j).place = .inside m' pc ∧
          shardingIndex hash m'.key = shardingIndex hash m.key := by
  rcases Striped.run_atomic (sections_whole hash) hrun with ⟨f, hmade, hbehind⟩
  refine ⟨Striped.run_ordered hrun, ⟨⟨f⟩, transcript_call hmade, hbehind.free⟩, ?_⟩
  intro i m hplace hstays
  have hheld := Striped.held_of_waits hplace hstays
  rcases ((Striped.run_excludes hrun).held _).1 hheld with ⟨j, m', pc, hj, hpart⟩
  exact ⟨j, m', pc, hj, hpart⟩

/-- While one thread pushes a key out of its shard, the other one is done with a
key of another shard. -/
theorem calls_linearize_two :
    ∃ s : Striped.State ℕ (Fin kShardingNum) (LRU ℕ ℕ) (Method ℕ ℕ) (Pc ℕ ℕ) Answer,
      run (Striped.act (sections id)) (Striped.State.start (new 1).caches fun i =>
        if i = 0 then [.insert 7 70, .insert 12 120] else [.insert 8 80, .get 7])
        [0, 0, 0, 0, 0, 0, 0, 1, 1, 0, 1, 1, 0, 1, 1, 0, 1, 1, 1, 0, 0, 1] = .ok s ∧
      Striped.Ordered
        (fun i => if i = 0 then [.insert 7 70, .insert 12 120] else [.insert 8 80, .get 7]) s ∧
        (∃ c, Striped.transcript (call id) (new 1) s.calls = .ok (c, s.answers) ∧
          ∀ k, (∀ i, ¬ (s.threads i).In (sections id) k) → s.shared k = c.caches k) ∧
        ∀ i m, (s.threads i).place = .waiting m → Striped.act (sections id) s i = .ok s →
          ∃ j m' pc, (s.threads j).place = .inside m' pc ∧
            shardingIndex id m'.key = shardingIndex id m.key := by
  have hruns : ∃ s : Striped.State ℕ (Fin kShardingNum) (LRU ℕ ℕ) (Method ℕ ℕ) (Pc ℕ ℕ) Answer,
      run (Striped.act (sections id)) (Striped.State.start (new 1).caches fun i =>
        if i = 0 then [.insert 7 70, .insert 12 120] else [.insert 8 80, .get 7])
        [0, 0, 0, 0, 0, 0, 0, 1, 1, 0, 1, 1, 0, 1, 1, 0, 1, 1, 1, 0, 0, 1] = .ok s := ⟨_, rfl⟩
  rcases hruns with ⟨s, hs⟩
  exact ⟨s, hs, calls_linearize id 1 _ hs⟩

/-- Without `release`, threads that all move again and again neither fail nor wait
for good: every call returns, with the answers of one order of them all, which
leaves the cache as it is. -/
theorem calls_return [Fintype ι] (hash : K → ℕ) (cap : ℕ) (programs : ι → List (Method K V))
    (rounds : List (List ι)) (hrelease : ∀ i, ∀ m ∈ programs i, m.isRelease = false)
    (hall : ∀ round ∈ rounds, ∀ i, i ∈ round)
    (hlong : ∑ i, 15 * (programs i).length < rounds.length) :
    ∃ s, run (Striped.act (sections hash)) (Striped.State.start (new cap).caches programs)
        rounds.flatten = .ok s ∧
      s.Finished ∧ (∀ i, s.callsOf i = programs i) ∧
        Striped.transcript (call hash) (new cap) s.calls = .ok (⟨s.shared⟩, s.answers) := by
  have hshelved : ∀ k, ∃ s, LRU.Shelved ((new cap : Cache K V).caches k) s :=
    fun _ => ⟨_, LRU.new_shelved cap⟩
  have hruns := Striped.run_ok (sections_whole hash) (fun l m hl hm => LRU.method_shelved hl hm)
    hshelved programs hrelease rounds.flatten
  rcases hruns with ⟨s, hrun, -⟩
  have hrank : Striped.Ranked (sections hash : Striped.Sections Fault _ (LRU K V) _ _ _) Pc.rank :=
    fun _ _ _ _ hanswer hstep => LRU.micro_rank hanswer hstep
  have hwork : ∑ i, ((programs i).map fun m => m.start.rank + 3).sum < rounds.length := by
    refine lt_of_le_of_lt (Finset.sum_le_sum fun i _ => ?_) hlong
    rw [Nat.mul_comm]
    refine (List.sum_le_card_nsmul _ 15 ?_).trans_eq (by simp)
    intro n hn
    rcases List.mem_map.1 hn with ⟨m, -, rfl⟩
    have := LRU.start_rank m
    omega
  have hfinished := Striped.run_finishes hrank hall hwork hrun
  refine ⟨s, hrun, hfinished, ?_, ?_⟩
  · intro i
    have hi := Striped.run_ordered hrun i
    simpa [Striped.Thread.left, (hfinished i).1, (hfinished i).2] using hi
  · rcases Striped.run_atomic (sections_whole hash) hrun with ⟨f, hmade, hbehind⟩
    have hf : f = s.shared := by
      funext k
      refine (hbehind.free k fun i => Striped.Thread.not_in ?_ k).symm
      simp [(hfinished i).1]
    rw [hf] at hmade
    exact transcript_call hmade

/-- Two threads that meet in a shard. -/
theorem calls_return_two :
    ∃ s : Striped.State Bool (Fin kShardingNum) (LRU ℕ ℕ) (Method ℕ ℕ) (Pc ℕ ℕ) Answer,
      run (Striped.act (sections id))
        (Striped.State.start (new 1).caches fun b => if b then [.insert 7 70] else [.get 7])
        (List.replicate 40 [true, false]).flatten = .ok s ∧
      s.Finished ∧ (∀ b, s.callsOf b = if b then [.insert 7 70] else [.get 7]) ∧
        Striped.transcript (call id) (new 1) s.calls = .ok (⟨s.shared⟩, s.answers) :=
  calls_return id 1 _ _ (by intro b; cases b <;> simp [Method.isRelease])
    (by intro round hround b; rw [List.eq_of_mem_replicate hround]; cases b <;> simp) (by decide)

end Cache

end Smallkv
