import Smallkv.Lib.Loops
import Smallkv.MemTable.OrderedMap

/-!
# MemTable.Walks — where the loops of a skip list go

Each of the three loops is the repetition of its body, and stands on a node at a
level in between. In every list that calls lead to, for every key, the loops
return, every `cur->next[level]` on the way is below the height of the node, and
`Delete` finds a predecessor at each level of the node it is to take out
(`run_safeWalks`).
-/

namespace Smallkv

open Fallible

namespace SkipList

open Tower

variable {Key Value : Type} [LinearOrder Key]

/-! ## The bodies of the loops -/

/-- One pass of the loop that `Get` and `Contains` share. -/
def searchBody (h : Arena (Node Key Value)) (key : Key) :
    Ptr × ℕ → Exec (Pass (Option (Node Key Value)) (Ptr × ℕ))
  | (cur, level) => do
    match ← nextAt h cur level with
    | none =>
      if level = 0 then pure (.done none)
      else pure (.again (cur, level - 1))
    | some next => do
      let node ← orFail .badAccess (h.load next)
      if node.key = key then pure (.done (some node))
      else if node.key < key then pure (.again (next, level))
      else if level = 0 then pure (.done none)
      else pure (.again (cur, level - 1))

/-- One pass of `FindPrevNode`. -/
def findPrevBody (h : Arena (Node Key Value)) (key : Key) :
    Ptr × ℕ × List (Option Ptr) → Exec (Pass (List (Option Ptr)) (Ptr × ℕ × List (Option Ptr)))
  | (cur, level, prev) => do
    match ← nextAt h cur level with
    | none => do
      let prev ← setPrev prev level cur
      if level > 0 then pure (.again (cur, level - 1, prev)) else pure (.done prev)
    | some next => do
      let node ← orFail .badAccess (h.load next)
      if node.key ≥ key then do
        let prev ← setPrev prev level cur
        if level > 0 then pure (.again (cur, level - 1, prev)) else pure (.done prev)
      else pure (.again (next, level, prev))

/-- One pass of the loop of `Delete`. -/
def deleteBody (h : Arena (Node Key Value)) (key : Key) :
    Ptr × ℕ × List (Option Ptr) × ℤ →
      Exec (Pass (List (Option Ptr) × ℤ) (Ptr × ℕ × List (Option Ptr) × ℤ))
  | (cur, level, prev, levelOfTarget) => do
    match ← nextAt h cur level with
    | none =>
      if level = 0 then pure (.done (prev, levelOfTarget))
      else pure (.again (cur, level - 1, prev, levelOfTarget))
    | some next => do
      let node ← orFail .badAccess (h.load next)
      if node.key = key then do
        let prev ← setPrev prev level cur
        if level = 0 then pure (.done (prev, (node.getLevel : ℤ)))
        else pure (.again (cur, level - 1, prev, (node.getLevel : ℤ)))
      else if node.key < key then pure (.again (next, level, prev, levelOfTarget))
      else do
        let prev ← setPrev prev level cur
        if level = 0 then pure (.done (prev, levelOfTarget))
        else pure (.again (cur, level - 1, prev, levelOfTarget))

variable {h : Arena (Node Key Value)} {key : Key}

theorem searchLoop_eq_loop (fuel : ℕ) (cur : Ptr) (level : ℕ) :
    searchLoop h key fuel cur level = loop (searchBody h key) .endless fuel (cur, level) := by
  refine eq_loop (f := fun fuel s => searchLoop h key fuel s.1 s.2) (fun _ => rfl) ?_ fuel
    (cur, level)
  rintro fuel ⟨cur, level⟩
  simp only [searchLoop, searchBody]
  cases nextAt h cur level with
  | error e => rfl
  | ok next =>
      cases next with
      | none =>
          simp only [ok_bind]
          split
          · rfl
          · rfl
      | some next =>
          simp only [ok_bind]
          cases h.load next with
          | none => rfl
          | some node =>
              simp only [orFail_some, ok_bind]
              split
              · rfl
              split
              · rfl
              split
              · rfl
              · rfl

theorem findPrevLoop_eq_loop (fuel : ℕ) (cur : Ptr) (level : ℕ) (prev : List (Option Ptr)) :
    findPrevLoop h key fuel cur level prev =
      loop (findPrevBody h key) .endless fuel (cur, level, prev) := by
  refine eq_loop (f := fun fuel s => findPrevLoop h key fuel s.1 s.2.1 s.2.2) (fun _ => rfl) ?_ fuel
    (cur, level, prev)
  rintro fuel ⟨cur, level, prev⟩
  -- both kinds of passes that record the node
  have hrecord : (setPrev prev level cur >>= fun prev =>
        if level > 0 then findPrevLoop h key fuel cur (level - 1) prev else pure prev) =
      (setPrev prev level cur >>= fun prev =>
        if level > 0 then pure (.again (cur, level - 1, prev)) else pure (.done prev)) >>=
          Pass.andThen fun s => findPrevLoop h key fuel s.1 s.2.1 s.2.2 := by
    cases setPrev prev level cur with
    | error e => rfl
    | ok prev =>
        simp only [ok_bind]
        split
        · rfl
        · rfl
  simp only [findPrevLoop, findPrevBody]
  cases nextAt h cur level with
  | error e => rfl
  | ok next =>
      cases next with
      | none => exact hrecord
      | some next =>
          simp only [ok_bind]
          cases h.load next with
          | none => rfl
          | some node =>
              simp only [orFail_some, ok_bind]
              split
              · exact hrecord
              · rfl

theorem deleteLoop_eq_loop (fuel : ℕ) (cur : Ptr) (level : ℕ) (prev : List (Option Ptr))
    (target : ℤ) :
    deleteLoop h key fuel cur level prev target =
      loop (deleteBody h key) .endless fuel (cur, level, prev, target) := by
  refine eq_loop (f := fun fuel s => deleteLoop h key fuel s.1 s.2.1 s.2.2.1 s.2.2.2)
    (fun _ => rfl) ?_ fuel (cur, level, prev, target)
  rintro fuel ⟨cur, level, prev, target⟩
  -- the passes that record the node, with the height of the target or without it
  have hrecord : ∀ height : ℤ, (setPrev prev level cur >>= fun prev =>
        if level = 0 then pure (prev, height)
        else deleteLoop h key fuel cur (level - 1) prev height) =
      (setPrev prev level cur >>= fun prev =>
        if level = 0 then pure (.done (prev, height))
        else pure (.again (cur, level - 1, prev, height))) >>=
          Pass.andThen fun s => deleteLoop h key fuel s.1 s.2.1 s.2.2.1 s.2.2.2 := by
    intro height
    cases setPrev prev level cur with
    | error e => rfl
    | ok prev =>
        simp only [ok_bind]
        split
        · rfl
        · rfl
  simp only [deleteLoop, deleteBody]
  cases nextAt h cur level with
  | error e => rfl
  | ok next =>
      cases next with
      | none =>
          simp only [ok_bind]
          split
          · rfl
          · rfl
      | some next =>
          simp only [ok_bind]
          cases h.load next with
          | none => rfl
          | some node =>
              simp only [orFail_some, ok_bind]
              split
              · exact hrecord node.getLevel
              split
              · rfl
              · exact hrecord target

/-! ## Where the loops stand -/

/-- There is a node at the address, and it reaches the level. -/
def Inside (h : Arena (Node Key Value)) (cur : Ptr) (level : ℕ) : Prop :=
  ∃ node, h.load cur = some node ∧ level < node.getLevel

omit [LinearOrder Key] in
theorem inside_of_nextAt {cur : Ptr} {level : ℕ} {next : Option Ptr}
    (hnext : nextAt h cur level = .ok next) : Inside h cur level := by
  rcases bind_eq_ok.1 hnext with ⟨node, hload, hget⟩
  rw [orFail_eq_ok] at hload hget
  exact ⟨node, hload, (List.getElem?_eq_some_iff.1 hget).1⟩

omit [LinearOrder Key] in
/-- Each of the bodies begins with reading the link. -/
theorem inside_of_pass {α : Type} {cur : Ptr} {level : ℕ} {rest : Option Ptr → Exec α} {p : α}
    (hbody : nextAt h cur level >>= rest = .ok p) : Inside h cur level := by
  rcases bind_eq_ok.1 hbody with ⟨next, hnext, -⟩
  exact inside_of_nextAt hnext

/-- Nothing is recorded at the level or below it. -/
def Unrecorded (prev : List (Option Ptr)) (level : ℕ) : Prop :=
  ∀ i ≤ level, (prev[i]?).join = none

theorem Unrecorded.below {prev : List (Option Ptr)} {level : ℕ} (h : Unrecorded prev level) :
    Unrecorded prev (level - 1) :=
  fun i hi => h i (hi.trans (Nat.sub_le level 1))

/-- A node is recorded at the level that the walk leaves. -/
theorem Unrecorded.setPrev {prev prev' : List (Option Ptr)} {level : ℕ} {cur : Ptr}
    (h : Unrecorded prev level) (h0 : level ≠ 0) (hset : setPrev prev level cur = .ok prev') :
    Unrecorded prev' (level - 1) := by
  rcases bind_eq_ok.1 hset with ⟨_, -, hset⟩
  cases hset
  intro i hi
  rw [List.getElem?_set_ne (by omega)]
  exact h i (by omega)

theorem deleteBody_unrecorded {cur next : Ptr} {level level' : ℕ} {prev prev' : List (Option Ptr)}
    {target target' : ℤ} (h₀ : Unrecorded prev level)
    (hbody : deleteBody h key (cur, level, prev, target) =
      .ok (.again (next, level', prev', target'))) : Unrecorded prev' level' := by
  rcases bind_eq_ok.1 hbody with ⟨q, -, hbody⟩
  cases q with
  | none =>
      -- the level is left without a record
      simp only at hbody
      split at hbody
      · cases hbody
      · cases hbody
        exact h₀.below
  | some q =>
      rcases bind_eq_ok.1 hbody with ⟨node, -, hbody⟩
      split at hbody
      · rcases bind_eq_ok.1 hbody with ⟨prev₁, hset, hbody⟩
        split at hbody
        · cases hbody
        · rename_i h0
          cases hbody
          exact h₀.setPrev h0 hset
      split at hbody
      · -- along the level
        cases hbody
        exact h₀
      · rcases bind_eq_ok.1 hbody with ⟨prev₁, hset, hbody⟩
        split at hbody
        · cases hbody
        · rename_i h0
          cases hbody
          exact h₀.setPrev h0 hset

/-! ## Safe walks -/

variable [Inhabited Key] [Inhabited Value] [HasSize Key] [HasSize Value]

/-- Where the loop of `Delete` starts. -/
def deleteStart (s : SkipList Key Value) : Ptr × ℕ × List (Option Ptr) × ℤ :=
  (s.head, s.getCurrentHeight - 1, List.replicate kMaxHeight none, -1)

/-- `Delete` of a key that is present: the walk is safe and never at the end of
level 0, the target and its predecessors at all of its levels are found, and the
target is what is taken out. -/
structure SafeDelete (s : SkipList Key Value) (key : Key) : Prop where
  inside : ∀ cur level prev target,
    Visits (deleteBody s.heap key) s.deleteStart (cur, level, prev, target) → Inside s.heap cur level
  no_error_point : ∀ cur prev target,
    Visits (deleteBody s.heap key) s.deleteStart (cur, 0, prev, target) →
      nextAt s.heap cur 0 ≠ .ok none
  removes : ∃ prev target node s',
    deleteLoop s.heap key s.walkBound s.head (s.getCurrentHeight - 1)
        (List.replicate kMaxHeight none) (-1) = .ok (prev, (node.getLevel : ℤ)) ∧
      s.heap.load target = some node ∧ node.key = key ∧ 1 ≤ node.getLevel ∧
      s.delete key = .ok s' ∧ s'.contains key = .ok false ∧
      ∀ i < node.getLevel, ∃ p, prev[i]? = some (some p) ∧ nextAt s.heap p i = .ok (some target) ∧
        nextAt s'.heap p i = nextAt s.heap target i

/-- The walks of all calls that look for a key. -/
structure SafeWalks (s : SkipList Key Value) (key : Key) : Prop where
  get : ∃ answer, s.get key = .ok answer
  contains : ∃ answer, s.contains key = .ok answer
  search_inside : ∀ cur level,
    Visits (searchBody s.heap key) (s.head, s.getCurrentHeight - 1) (cur, level) →
      Inside s.heap cur level
  findPrevNode : ∃ prev, s.findPrevNode key (List.replicate kMaxHeight none) = .ok prev
  findPrev_inside : ∀ cur level prev,
    Visits (findPrevBody s.heap key)
        (s.head, s.getCurrentHeight - 1, List.replicate kMaxHeight none) (cur, level, prev) →
      Inside s.heap cur level
  delete : s.contains key = .ok true → SafeDelete s key

variable {s : SkipList Key Value} {ts : List (Tower Key Value)}

theorem Wf.safeDelete {A B : List (Tower Key Value)} {u : Tower Key Value}
    (hwf : Wf s (A ++ u :: B)) : SafeDelete s u.key := by
  rcases hwf.deleteLoop_ok with ⟨prev, hprev, hpred⟩
  have hpos : 1 ≤ u.height := hwf.height_pos u (by simp)
  have hle : u.height ≤ kMaxHeight := (hwf.height_le u (by simp)).trans hwf.level_le
  have hloop := hprev
  rw [deleteLoop_eq_loop] at hloop
  constructor
  · intro cur level prev target hvisit
    rcases hvisit.body_ok hloop with ⟨p, hbody⟩
    exact inside_of_pass hbody
  · intro cur prev' target hvisit hnone
    -- the loop would be done, with nothing at level 0
    have hstart : Unrecorded (List.replicate kMaxHeight (none : Option Ptr)) (s.getCurrentHeight - 1) := by
      intro i _
      rw [List.getElem?_replicate]
      split
      · rfl
      · rfl
    have hempty := hvisit.invariant (fun p => Unrecorded p.2.2.1 p.2.1) hstart
      fun _ _ h₀ hbody => deleteBody_unrecorded h₀ hbody
    have hbody : deleteBody s.heap u.key (cur, 0, prev', target) = .ok (.done (prev', target)) := by
      rw [deleteBody, hnone]
      rfl
    have hdone := hvisit.done_eq hloop hbody
    cases hdone
    have hjoin := hempty 0 (Nat.le_refl 0)
    simp only [hpred 0 hpos] at hjoin
    cases hjoin
  · rcases delete_at hwf with ⟨s', hrun, hwf', hhead⟩
    refine ⟨prev, u.ptr, u.node B, s', ?_, hwf.load_at, rfl, ?_, hrun, ?_, ?_⟩
    · rw [Node.getLevel, node_next_length]
      exact hprev
    · rw [Node.getLevel, node_next_length]
      exact hpos
    · rw [contains_spec hwf', mapOf_drop hwf.sorted, Function.update_self]
      rfl
    · -- the predecessor at a level is led on to what the target was followed by
      intro i hi
      rw [Node.getLevel, node_next_length] at hi
      have hnext := hwf.nextAt_pred (Nat.lt_of_lt_of_le hi hle)
      have hnext' := hwf'.nextAt_pred (Nat.lt_of_lt_of_le hi hle)
      have hsame : s'.headTower = s.headTower := by
        rw [headTower, headTower, hhead]
      have hfirst : firstTall i (u :: B) = some u := by simp [firstTall, hi]
      have hchain := hwf.chain
      rw [← List.cons_append] at hchain
      rw [hsame] at hnext'
      rw [hfirst, Option.map_some] at hnext
      exact ⟨_, hpred i hi, hnext, hnext'.trans (hchain.suffix.nextAt_eq hi).symm⟩

theorem Wf.safeWalks (hwf : Wf s ts) (key : Key) : SafeWalks s key := by
  rcases hwf.sorted.split key with ⟨A, B, rfl, hA, hB⟩
  rcases hwf.search key with ⟨found, hsearch, -⟩
  rcases hwf.findPrevNode_ok rfl hA hB with ⟨prev, hfind, -⟩
  constructor
  · exact ⟨_, get_spec hwf key⟩
  · exact ⟨_, contains_spec hwf key⟩
  · intro cur level hvisit
    rw [searchLoop_eq_loop] at hsearch
    rcases hvisit.body_ok hsearch with ⟨p, hbody⟩
    exact inside_of_pass hbody
  · exact ⟨prev, hfind⟩
  · intro cur level prev' hvisit
    rw [findPrevNode, findPrevLoop_eq_loop] at hfind
    rcases hvisit.body_ok hfind with ⟨p, hbody⟩
    exact inside_of_pass hbody
  · intro hcontains
    rw [contains_spec hwf, Except.ok.injEq, Option.isSome_iff_exists] at hcontains
    rcases hcontains with ⟨v, hkey⟩
    rcases hwf.sorted.split_at hA hB hkey with ⟨u, C, rfl, rfl⟩
    exact hwf.safeDelete

/-- After any sequence of calls, whatever towers were drawn, the walks for every key
are safe. -/
theorem run_safeWalks (ops : List (Op Key Value)) :
    ∃ s log, run step (new, []) ops = .ok (s, log) ∧ ∀ key, SafeWalks s key := by
  rcases run_spec new_represents [] ops with ⟨s, hrun, ts, hwf, -⟩
  exact ⟨s, _, hrun, hwf.safeWalks⟩

end SkipList

end Smallkv
