import Smallkv.Lib.SharedMutex

/-!
# Sync.Lock — locks and the guard that scopes them

A `ScopedLock` takes a lock when it is made and gives it back when its scope
ends; in between it may be asked to unlock and to lock again, any number of
times and in any order. Whatever the threads ask of their guards, the lock sees
a `lock` and an `unlock` by turns, each `unlock` from the thread that has it:
the guards exclude each other exactly if the lock is not a `NullLock`.
-/

namespace Smallkv


/-! ## Locks -/

/-- The arguments that `ScopedLock` takes. -/
inductive LockType where
  | nullLock
  | mutexLock
  | spinLock
deriving DecidableEq, Repr

/-- One attempt of `lock()` on a lock that is taken or not: what it leaves, and
`none` where the attempt has to be made again. -/
def LockType.lock : LockType → Bool → Option Bool
  | .nullLock, taken => some taken
  | .mutexLock, taken => if taken then none else some true
  -- `test_and_set` returns what the flag was; setting it again changes nothing
  | .spinLock, flag => if flag then none else some true

def LockType.unlock : LockType → Bool → Bool
  | .nullLock, taken => taken
  | .mutexLock, _ => false
  | .spinLock, _ => false

/-- A mutex and a spin lock are what the library calls a mutex, without readers. -/
theorem acquire_eq_lock {T : LockType} (h : T ≠ .nullLock) (taken : Bool) :
    (⟨taken, 0⟩ : SharedMutex.Mutex).acquire true = (T.lock taken).map fun t => ⟨t, 0⟩ := by
  cases T with
  | nullLock => exact absurd rfl h
  | mutexLock => cases taken <;> rfl
  | spinLock => cases taken <;> rfl

/-! ## Guards -/

/-- What a guard is asked for while it is in scope. -/
inductive GuardCall where
  | lock
  | unlock
deriving DecidableEq, Repr

/-- Where a thread stands: it has no guard; its guard waits for the lock, in the
constructor or in `lock`; its guard is in scope and has `is_locked` or not. The
calls are those still to be made on the guard. -/
inductive Guard where
  | none
  | waiting (calls : List GuardCall)
  | inScope (isLocked : Bool) (calls : List GuardCall)

/-- A thread and the scopes it has before it. -/
structure Scopes where
  todo : List (List GuardCall)
  guard : Guard

/-- `calls` remembers what was called on the lock and has returned. -/
structure Guarded (ι : Type) where
  taken : Bool
  threads : ι → Scopes
  calls : List (ι × GuardCall)

namespace Guarded

variable {ι : Type}

def start (programs : ι → List (List GuardCall)) : Guarded ι :=
  ⟨false, fun i => ⟨programs i, .none⟩, []⟩

def Locked (s : Guarded ι) (i : ι) : Prop := ∃ calls, (s.threads i).guard = .inScope true calls

variable [DecidableEq ι]

def move (s : Guarded ι) (i : ι) (guard : Guard) : Guarded ι :=
  { s with threads := Function.update s.threads i { s.threads i with guard := guard } }

/-- The guard calls `unlock` on its lock. -/
def unlock (T : LockType) (s : Guarded ι) (i : ι) : Guarded ι :=
  { s with taken := T.unlock s.taken, calls := s.calls ++ [(i, .unlock)] }

/-- The next step of a thread. -/
def act (T : LockType) (s : Guarded ι) (i : ι) : Guarded ι :=
  match (s.threads i).guard with
  | .none =>
    match (s.threads i).todo with
    | [] => s
    | calls :: todo =>
      -- the constructor calls `lock` whatever `is_locked` is
      { s with threads := Function.update s.threads i ⟨todo, .waiting calls⟩ }
  | .waiting calls =>
    match T.lock s.taken with
    | none => s
    | some taken =>
      { s.move i (.inScope true calls) with taken := taken, calls := s.calls ++ [(i, .lock)] }
  | .inScope isLocked (.lock :: calls) =>
    if isLocked then s.move i (.inScope true calls) else s.move i (.waiting calls)
  | .inScope isLocked (.unlock :: calls) =>
    if isLocked then (s.unlock T i).move i (.inScope false calls)
    else s.move i (.inScope false calls)
  -- the destructor
  | .inScope isLocked [] => if isLocked then (s.unlock T i).move i .none else s.move i .none

def run (T : LockType) (s : Guarded ι) (schedule : List ι) : Guarded ι := schedule.foldl (act T) s

/-! ## What the lock sees -/

/-- One call on a lock that somebody has or nobody has, and who has it then: nobody
locks what is locked, and only who has the lock unlocks it. -/
def grant : Option ι → ι × GuardCall → Option (Option ι)
  | none, (i, .lock) => some (some i)
  | some j, (i, .unlock) => if i = j then some none else none
  | _, _ => none

/-- Who has the lock behind the calls, if they were made by turns. -/
def holder (calls : List (ι × GuardCall)) : Option (Option ι) := calls.foldlM grant none

/-- The calls were made by turns; the lock is taken as long as somebody has it, and
then it is the one whose guard is locked. -/
structure TakesTurns (s : Guarded ι) (h : Option ι) : Prop where
  holder : holder s.calls = some h
  taken : s.taken = h.isSome
  locked : ∀ i, s.Locked i ↔ h = some i

variable {s : Guarded ι} {i : ι} {h : Option ι} {T : LockType}

theorem holder_concat {calls : List (ι × GuardCall)} (hcalls : holder calls = some h)
    (call : ι × GuardCall) : holder (calls ++ [call]) = grant h call := by
  rw [holder, List.foldlM_append]
  rw [holder] at hcalls
  simp [hcalls]

theorem locked_move (s : Guarded ι) (i j : ι) (g : Guard) :
    (s.move i g).Locked j ↔ if j = i then ∃ calls, g = .inScope true calls else s.Locked j := by
  unfold move Locked
  by_cases hj : j = i
  · rw [if_pos hj, hj]
    simp only [Function.update_self]
  · rw [if_neg hj]
    simp only [Function.update_of_ne hj]

/-- A step between two calls on the lock. -/
theorem TakesTurns.move (ht : TakesTurns s h) {g : Guard}
    (hsame : s.Locked i ↔ ∃ calls, g = .inScope true calls) : TakesTurns (s.move i g) h where
  holder := ht.holder
  taken := ht.taken
  locked := by
    intro j
    rw [locked_move]
    split
    · rename_i hj
      rw [← hsame, hj, ht.locked]
    · exact ht.locked j

/-- The lock is given back by the guard that has it. -/
theorem TakesTurns.unlock (ht : TakesTurns s h) (hT : T ≠ .nullLock) (hi : s.Locked i) {g : Guard}
    (hg : ∀ calls, g ≠ .inScope true calls) : TakesTurns ((s.unlock T i).move i g) none := by
  obtain rfl : h = some i := (ht.locked i).1 hi
  refine ⟨?_, ?_, ?_⟩
  · refine (holder_concat ht.holder (i, .unlock)).trans ?_
    simp [grant]
  · cases T with
    | nullLock => exact absurd rfl hT
    | mutexLock => rfl
    | spinLock => rfl
  · intro j
    refine iff_of_false ?_ (by simp)
    rw [locked_move]
    split
    · rintro ⟨calls, heq⟩
      exact hg calls heq
    · rename_i hj
      intro hlocked
      exact hj (Option.some.inj ((ht.locked j).1 hlocked)).symm

/-- The lock is taken when nobody has it. -/
theorem TakesTurns.lock (ht : TakesTurns s h) (hT : T ≠ .nullLock) {taken : Bool}
    (hlock : T.lock s.taken = some taken) (calls : List GuardCall) :
    TakesTurns { s.move i (.inScope true calls) with
      taken := taken, calls := s.calls ++ [(i, .lock)] } (some i) := by
  have hfree : s.taken = false ∧ taken = true := by
    cases T with
    | nullLock => exact absurd rfl hT
    | mutexLock => cases htaken : s.taken <;> simp_all [LockType.lock]
    | spinLock => cases htaken : s.taken <;> simp_all [LockType.lock]
  rcases hfree with ⟨hfree, rfl⟩
  obtain rfl : h = none := by
    rw [ht.taken] at hfree
    simpa using hfree
  refine ⟨holder_concat ht.holder (i, .lock), rfl, ?_⟩
  intro j
  refine (locked_move s i j _).trans ?_
  split
  · rename_i hj
    simp [hj]
  · rename_i hj
    have hi : some i ≠ some j := fun heq => hj (Option.some.inj heq).symm
    rw [ht.locked]
    simp [hi]

theorem act_takesTurns (hT : T ≠ .nullLock) (ht : TakesTurns s h) (i : ι) :
    ∃ h', TakesTurns (s.act T i) h' := by
  unfold act
  cases hguard : (s.threads i).guard with
  | none =>
      have hnot : ¬ s.Locked i := by
        rintro ⟨calls, hcalls⟩
        rw [hguard] at hcalls
        cases hcalls
      cases htodo : (s.threads i).todo with
      | nil => exact ⟨h, by simpa only using ht⟩
      | cons calls todo =>
          refine ⟨h, ht.holder, ht.taken, ?_⟩
          intro j
          rw [← ht.locked j]
          unfold Locked
          by_cases hj : j = i
          · subst hj
            simp only [Function.update_self]
            exact iff_of_false (by simp) hnot
          · simp only [Function.update_of_ne hj]
  | waiting calls =>
      cases hlock : T.lock s.taken with
      | none => exact ⟨h, by simpa only [hlock] using ht⟩
      | some taken => exact ⟨some i, by simpa only [hlock] using ht.lock hT hlock calls⟩
  | inScope isLocked calls =>
      have hiff : s.Locked i ↔ isLocked = true := by
        unfold Locked
        rw [hguard]
        simp
      cases isLocked with
      | true =>
          have hi := hiff.2 rfl
          cases calls with
          | nil => exact ⟨none, by simpa using ht.unlock hT hi (g := .none) (by simp)⟩
          | cons call calls =>
              cases call with
              | lock =>
                  exact ⟨h, by simpa using ht.move (g := .inScope true calls) (by simp [hi])⟩
              | unlock =>
                  exact ⟨none, by simpa using ht.unlock hT hi (g := .inScope false calls) (by simp)⟩
      | false =>
          have hi : ¬ s.Locked i := fun hlocked => Bool.false_ne_true (hiff.1 hlocked)
          cases calls with
          | nil => exact ⟨h, by simpa using ht.move (g := .none) (by simp [hi])⟩
          | cons call calls =>
              cases call with
              | lock => exact ⟨h, by simpa using ht.move (g := .waiting calls) (by simp [hi])⟩
              | unlock => exact ⟨h, by simpa using ht.move (g := .inScope false calls) (by simp [hi])⟩

theorem run_takesTurns (hT : T ≠ .nullLock) (programs : ι → List (List GuardCall))
    (schedule : List ι) : ∃ h, TakesTurns (run T (start programs) schedule) h := by
  unfold run
  induction schedule using List.reverseRecOn with
  | nil =>
      refine ⟨none, rfl, rfl, ?_⟩
      intro i
      simp [Locked, start]
  | append_singleton schedule i ih =>
      rcases ih with ⟨h, hs⟩
      rw [List.foldl_concat]
      exact act_takesTurns hT hs i

end Guarded

namespace Guarded

/-- The calls on the lock are made by turns, no two guards are locked at a time,
and when all scopes have ended the lock is free. -/
structure Disciplined {ι : Type} [DecidableEq ι] (s : Guarded ι) : Prop where
  alternate : (holder s.calls).isSome
  exclusive : ∀ i j, s.Locked i → s.Locked j → i = j
  released : (∀ i, (s.threads i).guard = .none) → s.taken = false ∧ holder s.calls = some none

end Guarded

open Guarded

/-- Guards keep the discipline, whatever their threads ask of them and whenever,
exactly if the lock is not a `NullLock`. -/
theorem guards_disciplined_iff (ι : Type) [DecidableEq ι] [Nontrivial ι] (T : LockType) :
    (∀ (programs : ι → List (List GuardCall)) (schedule : List ι),
      Disciplined (run T (start programs) schedule)) ↔ T ≠ .nullLock := by
  constructor
  · rintro h rfl
    rcases exists_pair_ne ι with ⟨i, j, hij⟩
    -- both threads get through their constructors
    have hrun := (h (fun _ => [[]]) [i, i, j, j]).exclusive i j
    refine hij (hrun ⟨[], ?_⟩ ⟨[], ?_⟩)
    · simp [run, act, start, move, LockType.lock, hij, hij.symm]
    · simp [run, act, start, move, LockType.lock, hij.symm]
  · intro hT programs schedule
    rcases run_takesTurns hT programs schedule with ⟨h, ht⟩
    refine ⟨by rw [ht.holder]; rfl, ?_, ?_⟩
    · intro i j hi hj
      have heq := ((ht.locked i).1 hi).symm.trans ((ht.locked j).1 hj)
      exact Option.some.inj heq
    · intro hnone
      obtain rfl : h = none := by
        cases h with
        | none => rfl
        | some i =>
            rcases (ht.locked i).2 rfl with ⟨calls, hcalls⟩
            rw [hnone i] at hcalls
            cases hcalls
      exact ⟨ht.taken, ht.holder⟩

theorem guards_disciplined_iff_spinLock :
    (∀ (programs : ℕ → List (List GuardCall)) (schedule : List ℕ),
      Disciplined (run .spinLock (start programs) schedule)) ↔
        LockType.spinLock ≠ LockType.nullLock :=
  guards_disciplined_iff ℕ .spinLock

end Smallkv
