import Smallkv.Cache.Residency
import Smallkv.Lib.MutexProgress
import Smallkv.Sync.Lock

/-!
# Cache.Sections — the methods of a shard under its lock

Each method of a shard begins with a guard for its lock and then changes list,
index, garbage station and nodes one after the other; in between they do not
agree with each other. `Pc` is where a method stands, `micro` its next step, and
`remaining` what it still has to do, told in terms of the whole methods: a step
never changes that, so threads see whole methods only (`methods_atomic`).
-/

namespace Smallkv

open Fallible SharedMutex

namespace LRU

variable {K V : Type}

inductive Method (K V : Type) where
  | insert (key : K) (val : V)
  | erase (key : K)
  | get (key : K)
  | contains (key : K)
  | release (key : K)

inductive Answer where
  | void
  | node (p : Option Ptr)
  | bool (b : Bool)

/-- Where a method stands, with its local variables. -/
inductive Pc (K V : Type) where
  /-- `insert`: the node is made -/
  | insert (key : K) (val : V)
  /-- it looks for the key, and goes to the front of the list or moves what is there -/
  | link (key : K) (p : Ptr)
  /-- `index[key] = nodes.begin()` for the new node -/
  | indexNew (key : K) (p : Ptr)
  /-- `nodes.size() > cap` -/
  | trim
  /-- `index[key] = nodes.begin()` for the node that was moved -/
  | indexMoved (key : K) (iter : Ptr)
  | erase (key : K)
  | get (key : K)
  | indexGot (key : K) (iter : Ptr)
  | ref (iter : Ptr)
  | contains (key : K)
  | release (key : K)
  /-- `phantom_erase_node`: no longer in the cache -/
  | mark (p : Ptr)
  /-- out of the list -/
  | unlink (p : Ptr)
  /-- out of the index -/
  | unindex (p : Ptr)
  /-- into the garbage station -/
  | station (p : Ptr)
  /-- `unref`: one reference less -/
  | unref (p : Ptr)
  /-- none is left: the destructor is called -/
  | destruct (p : Ptr)
  /-- out of the garbage station -/
  | forget (p : Ptr)
  /-- `delete node` -/
  | delete (p : Ptr)
  | done (a : Answer)

variable [DecidableEq K]

/-- A whole method. -/
def method (l : LRU K V) : Method K V → Exec (LRU K V × Answer)
  | .insert key val => do
    let l ← l.insert key val
    pure (l, .void)
  | .erase key => do
    let l ← l.erase key
    pure (l, .void)
  | .get key => do
    let (l, p) ← l.get key
    pure (l, .node p)
  | .contains key => pure (l, .bool (l.contains key))
  | .release key => do
    let l ← l.release key
    pure (l, .void)

/-- The next step of a method. -/
def micro (l : LRU K V) : Pc K V → Exec (LRU K V × Pc K V)
  | .insert key val => pure (l.newNode key val, .link key l.heap.fresh)
  | .link key p =>
    match l.index key with
    | none => pure ({ l with nodes := p :: l.nodes }, .indexNew key p)
    | some iter => pure ({ l with nodes := iter :: l.nodes.erase iter }, .indexMoved key iter)
  | .indexNew key p => pure ({ l with index := Function.update l.index key (some p) }, .trim)
  | .trim =>
    if l.nodes.length > l.cap then do
      let oldNode ← orFail .badAccess l.nodes.getLast?
      pure (l, .mark oldNode)
    else pure (l, .done .void)
  | .indexMoved key iter =>
    pure ({ l with index := Function.update l.index key (some iter) }, .done .void)
  | .erase key =>
    match l.index key with
    | none => pure (l, .done .void)
    | some iter => pure (l, .mark iter)
  | .get key =>
    match l.index key with
    | none => pure (l, .done (.node none))
    | some iter => pure ({ l with nodes := iter :: l.nodes.erase iter }, .indexGot key iter)
  | .indexGot key iter =>
    pure ({ l with index := Function.update l.index key (some iter) }, .ref iter)
  | .ref iter => do
    let node ← orFail .badAccess (l.heap.load iter)
    pure ({ l with heap := l.heap.store iter { node with refCnt := asInt32 (node.refCnt + 1) } },
      .done (.node (some iter)))
  | .contains key => pure (l, .done (.bool (l.contains key)))
  | .release key => do
    let iter ← orFail .badAccess (l.index key)
    pure (l, .unref iter)
  | .mark p => do
    let node ← orFail .badAccess (l.heap.load p)
    pure ({ l with heap := l.heap.store p { node with inCache := false } }, .unlink p)
  | .unlink p => do
    let node ← orFail .badAccess (l.heap.load p)
    let iter ← orFail .badAccess (l.index node.key)
    pure ({ l with nodes := l.nodes.erase iter }, .unindex p)
  | .unindex p => do
    let node ← orFail .badAccess (l.heap.load p)
    pure ({ l with index := Function.update l.index node.key none }, .station p)
  | .station p => do
    let node ← orFail .badAccess (l.heap.load p)
    pure ({ l with garbageStation := Function.update l.garbageStation node.key (some p) }, .unref p)
  | .unref p => do
    let node ← orFail .badAccess (l.heap.load p)
    let refCnt := asInt32 (node.refCnt - 1)
    let l := { l with heap := l.heap.store p { node with refCnt := refCnt } }
    if refCnt ≤ 0 then pure (l, .destruct p) else pure (l, .done .void)
  | .destruct p => do
    let node ← orFail .badAccess (l.heap.load p)
    pure ({ l with destroyed := l.destroyed ++ [node.val] }, .forget p)
  | .forget p => do
    let node ← orFail .badAccess (l.heap.load p)
    pure ({ l with garbageStation := Function.update l.garbageStation node.key none }, .delete p)
  | .delete p => pure ({ l with heap := l.heap.free p }, .done .void)
  | .done a => pure (l, .done a)

/-- The end of `insert`. -/
def trimmed (l : LRU K V) : Exec (LRU K V) :=
  if l.nodes.length > l.cap then do
    let oldNode ← orFail .badAccess l.nodes.getLast?
    l.phantomEraseNode oldNode
  else pure l

/-- What a method that stands there will have done when it returns. -/
def remaining (l : LRU K V) : Pc K V → Exec (LRU K V × Answer)
  | .insert key val => l.method (.insert key val)
  | .link key p =>
    match l.index key with
    | none => do
      let l ← (l.pushFront key p).trimmed
      pure (l, .void)
    | some iter => pure (l.spliceFront key iter, .void)
  | .indexNew key p => do
    let l ← { l with index := Function.update l.index key (some p) }.trimmed
    pure (l, .void)
  | .trim => do
    let l ← l.trimmed
    pure (l, .void)
  | .indexMoved key iter =>
    pure ({ l with index := Function.update l.index key (some iter) }, .void)
  | .erase key => l.method (.erase key)
  | .get key => l.method (.get key)
  | .indexGot key iter => do
    let l ← { l with index := Function.update l.index key (some iter) }.ref iter
    pure (l, .node (some iter))
  | .ref iter => do
    let l ← l.ref iter
    pure (l, .node (some iter))
  | .contains key => l.method (.contains key)
  | .release key => l.method (.release key)
  | .mark p => do
    let l ← l.phantomEraseNode p
    pure (l, .void)
  | .unlink p => do
    let node ← orFail .badAccess (l.heap.load p)
    let iter ← orFail .badAccess (l.index node.key)
    let l ←
      { l with
        nodes := l.nodes.erase iter
        index := Function.update l.index node.key none
        garbageStation := Function.update l.garbageStation node.key (some p) }.unref p
    pure (l, .void)
  | .unindex p => do
    let node ← orFail .badAccess (l.heap.load p)
    let l ←
      { l with
        index := Function.update l.index node.key none
        garbageStation := Function.update l.garbageStation node.key (some p) }.unref p
    pure (l, .void)
  | .station p => do
    let node ← orFail .badAccess (l.heap.load p)
    let l ←
      { l with garbageStation := Function.update l.garbageStation node.key (some p) }.unref p
    pure (l, .void)
  | .unref p => do
    let l ← l.unref p
    pure (l, .void)
  | .destruct p => do
    let node ← orFail .badAccess (l.heap.load p)
    pure ({ l with
      heap := l.heap.free p
      garbageStation := Function.update l.garbageStation node.key none
      destroyed := l.destroyed ++ [node.val] }, .void)
  | .forget p => do
    let node ← orFail .badAccess (l.heap.load p)
    pure ({ l with
      heap := l.heap.free p
      garbageStation := Function.update l.garbageStation node.key none }, .void)
  | .delete p => pure ({ l with heap := l.heap.free p }, .void)
  | .done a => pure (l, a)

/-- `unref`, to the end of the destructor. -/
theorem unref_remaining (l : LRU K V) (p : Ptr) :
    l.remaining (.unref p) = l.micro (.unref p) >>= fun r => r.1.remaining r.2 := by
  cases hload : l.heap.load p with
  | none => simp only [remaining, micro, unref, hload, orFail_none, error_bind]
  | some node =>
      have hload' := Arena.load_store_self
        { node with refCnt := asInt32 (node.refCnt - 1) } hload
      by_cases hcount : asInt32 (node.refCnt - 1) ≤ 0
      · simp only [remaining, micro, unref, hload, orFail_some, ok_bind, pure_eq_ok, if_pos hcount,
          hload', Arena.free_store]
      · simp only [remaining, micro, unref, hload, orFail_some, ok_bind, pure_eq_ok,
          if_neg hcount]

/-- A step is part of what remains to be done. -/
theorem micro_remaining (l : LRU K V) (pc : Pc K V) :
    l.remaining pc = l.micro pc >>= fun r => r.1.remaining r.2 := by
  cases pc with
  | insert key val =>
      have hindex : (l.newNode key val).index key = l.index key := rfl
      simp only [remaining, micro, method, insert, pure_eq_ok, ok_bind, hindex]
      cases l.index key with
      | none => rfl
      | some iter => rfl
  | link key p =>
      simp only [remaining, micro]
      cases l.index key with
      | none => rfl
      | some iter => rfl
  | indexNew key p => rfl
  | trim =>
      simp only [remaining, micro, trimmed]
      by_cases hfull : l.nodes.length > l.cap
      · simp only [if_pos hfull]
        cases l.nodes.getLast? with
        | none => rfl
        | some oldNode => rfl
      · simp only [if_neg hfull, pure_eq_ok, ok_bind]
  | indexMoved key iter => rfl
  | erase key =>
      simp only [remaining, micro, method, erase]
      cases l.index key with
      | none => rfl
      | some iter => rfl
  | get key =>
      simp only [remaining, micro, method, get]
      cases l.index key with
      | none => rfl
      | some iter =>
          simp only [bind_assoc, pure_eq_ok, ok_bind]
          rfl
  | indexGot key iter => rfl
  | ref iter =>
      simp only [remaining, micro, ref]
      cases l.heap.load iter with
      | none => rfl
      | some node => rfl
  | contains key => rfl
  | release key =>
      simp only [remaining, micro, method, release]
      cases l.index key with
      | none => rfl
      | some iter => rfl
  | mark p =>
      cases hload : l.heap.load p with
      | none => simp only [remaining, micro, phantomEraseNode, hload, orFail_none, error_bind]
      | some node =>
          have hload' := Arena.load_store_self { node with inCache := false } hload
          simp only [remaining, micro, phantomEraseNode, hload, orFail_some, ok_bind, pure_eq_ok,
            hload', bind_assoc]
  | unlink p =>
      simp only [remaining, micro]
      cases hload : l.heap.load p with
      | none => rfl
      | some node =>
          simp only [orFail_some, ok_bind]
          cases l.index node.key with
          | none => rfl
          | some iter => simp only [orFail_some, ok_bind, pure_eq_ok, hload]
  | unindex p =>
      simp only [remaining, micro]
      cases hload : l.heap.load p with
      | none => rfl
      | some node => simp only [orFail_some, ok_bind, pure_eq_ok, hload]
  | station p =>
      simp only [remaining, micro]
      cases l.heap.load p with
      | none => rfl
      | some node => rfl
  | unref p => exact unref_remaining l p
  | destruct p =>
      simp only [remaining, micro]
      cases hload : l.heap.load p with
      | none => rfl
      | some node => simp only [orFail_some, ok_bind, pure_eq_ok, hload]
  | forget p =>
      simp only [remaining, micro]
      cases l.heap.load p with
      | none => rfl
      | some node => rfl
  | delete p => rfl
  | done a => rfl

/-! ## Many threads -/

def Method.start : Method K V → Pc K V
  | .insert key val => .insert key val
  | .erase key => .erase key
  | .get key => .get key
  | .contains key => .contains key
  | .release key => .release key

def Pc.isDone : Pc K V → Bool
  | .done _ => true
  | _ => false

/-- The methods under the lock of the shard, each of them alone. -/
def sections : Protocol Fault (LRU K V) (Method K V) (Pc K V) where
  check _ _ := pure ()
  exclusive _ := true
  start := Method.start
  isOver := Pc.isDone
  step := micro

/-- Methods, one after the other. -/
def methods (l : LRU K V) (cs : List (Method K V)) : Exec (LRU K V) :=
  run (fun l c => do
    let (l, _) ← l.method c
    pure l) l cs

theorem remaining_start (l : LRU K V) (c : Method K V) : l.remaining c.start = l.method c := by
  cases c <;> rfl

/-- While a method is inside, what it has done and what remains are together the
whole method, on the shard that the methods before it have left. -/
theorem sections_rule (cap : ℕ) :
    Rule (sections : Protocol Fault (LRU K V) (Method K V) (Pc K V))
      (fun cs l => methods (new cap) cs = .ok l)
      (fun cs c l pc => ∃ l₁, methods (new cap) cs = .ok l₁ ∧ l.remaining pc = l₁.method c)
      (fun _ _ _ _ => False)
      (fun cs c pc => ∃ l₁ l₂ a, methods (new cap) cs = .ok l₁ ∧ l₁.method c = .ok (l₂, a) ∧
        pc = .done a) where
  writer_enter := by
    intro cs c l _ hl
    exact ⟨l, hl, remaining_start l c⟩
  writer_step := by
    rintro cs c l l' pc pc' - ⟨l₁, hl₁, hremaining⟩ - hstep
    refine ⟨l₁, hl₁, ?_⟩
    have hmicro : l.micro pc = .ok (l', pc') := hstep
    rw [← hremaining, micro_remaining l pc, hmicro, ok_bind]
  writer_leave := by
    rintro cs c l pc - ⟨l₁, hl₁, hremaining⟩ hover
    cases pc with
    | done a =>
        have hmethod : l₁.method c = .ok (l, a) := hremaining.symm
        refine ⟨?_, l₁, l, a, hl₁, hmethod, rfl⟩
        rw [methods, run_concat_ok]
        exact ⟨l₁, hl₁, by rw [hmethod]; rfl⟩
    | _ => cases hover
  reader_enter := by
    intro cs c l hmode
    cases hmode
  reader_step := by
    intro cs c l l' pc pc' hmode
    cases hmode
  reader_leave := by
    intro cs c l pc hmode
    cases hmode

variable {ι : Type} [DecidableEq ι]

/-- No method shares the lock, so what a method waits for is `lock` of a `MutexLock`. -/
theorem sections_lock {cap : ℕ} {programs : ι → List (Method K V)} {schedule : List ι}
    {s : State ι (LRU K V) (Method K V) (Pc K V)}
    (hrun : run (SharedMutex.act sections) (State.start (new cap) programs) schedule = .ok s)
    (c : Method K V) :
    s.mutex.acquire ((sections : Protocol Fault (LRU K V) _ _).exclusive c) =
      (LockType.mutexLock.lock s.mutex.writer).map fun taken => ⟨taken, 0⟩ := by
  rcases (run_excludes hrun).readers with ⟨R, hR, hcard⟩
  have hnone : R = ∅ := by
    rw [Finset.eq_empty_iff_forall_notMem]
    intro i hi
    rcases (hR i).1 hi with ⟨c, before, pc, -, hmode⟩
    cases hmode
  have hmutex : s.mutex = ⟨s.mutex.writer, 0⟩ := by
    rw [hnone, Finset.card_empty] at hcard
    rw [← hcard]
  rw [← acquire_eq_lock (by decide), ← hmutex]
  rfl

/-- Threads that call the methods of a shard, each step of theirs at any time: when
nobody is inside, the shard is what the methods leave that had the lock, whole and
in that order; every thread has its calls made once and in its order; and a method
that has returned gave the answer that it gives in that place of the order. -/
theorem methods_atomic (cap : ℕ) (programs : ι → List (Method K V)) {schedule : List ι}
    {s : State ι (LRU K V) (Method K V) (Pc K V)}
    (hrun : run (SharedMutex.act sections) (State.start (new cap) programs) schedule = .ok s) :
    Ordered sections programs s ∧
      ((∀ i, ¬ (s.threads i).Inside sections true) →
        methods (new cap) s.calls = .ok s.shared) ∧
      ∀ i c before pc, (c, before, pc) ∈ (s.threads i).ended →
        s.calls[before]? = some c ∧ ∃ l₁ l₂ a, methods (new cap) (s.calls.take before) = .ok l₁ ∧
          l₁.method c = .ok (l₂, a) ∧ pc = .done a := by
  have h := run_promised (sections_rule cap) rfl hrun
  refine ⟨run_ordered hrun, h.idle, ?_⟩
  intro i c before pc hended
  rcases h.ended i c before pc hended with ⟨-, hmade, hanswer⟩
  exact ⟨hmade rfl, hanswer⟩

/-- One thread gets a key while another one pushes it out: a step here, a step
there. -/
theorem methods_atomic_two :
    ∃ s : State ℕ (LRU ℕ ℕ) (Method ℕ ℕ) (Pc ℕ ℕ),
      run (SharedMutex.act sections) (State.start (new 1) fun i =>
        if i = 0 then [.insert 7 70, .insert 8 80] else [.get 7])
        [0, 1, 0, 1, 0, 0, 0, 0, 0, 1, 0, 1, 0, 1, 1, 1, 1, 0, 0, 0, 0, 0, 0, 0, 0, 0] = .ok s ∧
      Ordered sections (fun i => if i = 0 then [.insert 7 70, .insert 8 80] else [.get 7]) s ∧
        ((∀ i, ¬ (s.threads i).Inside sections true) → methods (new 1) s.calls = .ok s.shared) ∧
        ∀ i c before pc, (c, before, pc) ∈ (s.threads i).ended →
          s.calls[before]? = some c ∧ ∃ l₁ l₂ a, methods (new 1) (s.calls.take before) = .ok l₁ ∧
            l₁.method c = .ok (l₂, a) ∧ pc = .done a := by
  have hruns : ∃ s : State ℕ (LRU ℕ ℕ) (Method ℕ ℕ) (Pc ℕ ℕ),
      run (SharedMutex.act sections) (State.start (new 1) fun i =>
        if i = 0 then [.insert 7 70, .insert 8 80] else [.get 7])
        [0, 1, 0, 1, 0, 0, 0, 0, 0, 1, 0, 1, 0, 1, 1, 1, 1, 0, 0, 0, 0, 0, 0, 0, 0, 0] = .ok s :=
    ⟨_, rfl⟩
  rcases hruns with ⟨s, hs⟩
  exact ⟨s, hs, methods_atomic 1 _ hs⟩

end LRU

end Smallkv
