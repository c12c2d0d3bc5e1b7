import Smallkv.Lib.Fallible

/-!
# SharedMutex — threads that take turns on a shared state

A mutex that one writer or any number of readers may hold guards a state. A
thread works off a list of calls: it asks for the mutex in the mode of the call,
takes the steps of the call on the state, and lets go. Which thread moves next
is free, and one that finds the mutex taken stays where it is.

`Rule` is the proof rule: an invariant for the state nobody writes to, one for
the writer inside, one for each reader, and what is to hold of a call that has
ended. `Ranked` is what termination takes: `run_finishes` says that then every
call ends, whatever the order.
-/

namespace SharedMutex

open Fallible

/-! ## The mutex -/

/-- Whether there is a writer, and how many readers. -/
structure Mutex where
  writer : Bool
  readers : ℕ
deriving DecidableEq, Repr

namespace Mutex

def free : Mutex := ⟨false, 0⟩

/-- `none` where one has to wait. -/
def acquire (m : Mutex) (exclusive : Bool) : Option Mutex :=
  if exclusive then if m.writer = false ∧ m.readers = 0 then some { m with writer := true } else none
  else if m.writer = false then some { m with readers := m.readers + 1 } else none

def release (m : Mutex) (exclusive : Bool) : Mutex :=
  if exclusive then { m with writer := false } else { m with readers := m.readers - 1 }

theorem acquire_exclusive {m m' : Mutex} (h : m.acquire true = some m') :
    m.writer = false ∧ m.readers = 0 ∧ m' = ⟨true, 0⟩ := by
  unfold acquire at h
  rw [if_pos rfl] at h
  split at h
  · rename_i hfree
    cases h
    exact ⟨hfree.1, hfree.2, by rw [hfree.2]⟩
  · cases h

theorem acquire_shared {m m' : Mutex} (h : m.acquire false = some m') :
    m.writer = false ∧ m' = ⟨false, m.readers + 1⟩ := by
  unfold acquire at h
  rw [if_neg Bool.false_ne_true] at h
  split at h
  · rename_i hfree
    cases h
    exact ⟨hfree, by rw [hfree]⟩
  · cases h

end Mutex

/-! ## Threads -/

/-- The calls `C` on a state `σ`, with what a call keeps to itself in `L`. -/
structure Protocol (ε : Type u) (σ C L : Type v) where
  /-- made before the mutex is asked for -/
  check : σ → C → Except ε PUnit.{v + 1}
  exclusive : C → Bool
  start : C → L
  isOver : L → Bool
  step : σ → L → Except ε (σ × L)

inductive Place (C L : Type v) where
  | idle
  | waiting (c : C)
  /-- with the number of exclusive calls that were let in before -/
  | inside (c : C) (before : ℕ) (l : L)

/-- A thread; of its calls that have ended it keeps what they were left with, the
last one first. -/
structure Thread (C L : Type v) where
  todo : List C
  place : Place C L
  ended : List (C × ℕ × L)

/-- `order` remembers the exclusive calls as they were let in; no step reads it
but for its length, which the history of a call is stamped with. -/
structure State (ι σ C L : Type v) where
  shared : σ
  mutex : Mutex
  threads : ι → Thread C L
  order : List (ι × C)

variable {ε : Type u} {ι σ C L : Type v}

/-- Nobody has begun. -/
def State.start (shared : σ) (programs : ι → List C) : State ι σ C L :=
  ⟨shared, .free, fun i => ⟨programs i, .idle, []⟩, []⟩

/-- The exclusive calls as they were let in. -/
def State.calls (s : State ι σ C L) : List C := s.order.map Prod.snd

/-- Every thread is through. -/
def State.Finished (s : State ι σ C L) : Prop :=
  ∀ i, (s.threads i).place = .idle ∧ (s.threads i).todo = []

variable [DecidableEq ι]

def State.move (s : State ι σ C L) (i : ι) (t : Thread C L) : State ι σ C L :=
  { s with threads := Function.update s.threads i t }

/-- The next step of a thread. -/
def act (P : Protocol ε σ C L) (s : State ι σ C L) (i : ι) : Except ε (State ι σ C L) :=
  let t := s.threads i
  match t.place with
  | .idle =>
    match t.todo with
    | [] => pure s
    | c :: cs => do
      P.check s.shared c
      pure (s.move i { t with todo := cs, place := .waiting c })
  | .waiting c =>
    match s.mutex.acquire (P.exclusive c) with
    | none => pure s
    | some m =>
      pure
        { s.move i { t with place := .inside c s.order.length (P.start c) } with
          mutex := m
          order := if P.exclusive c then s.order ++ [(i, c)] else s.order }
  | .inside c before l =>
    if P.isOver l then
      pure
        { s.move i { t with place := .idle, ended := (c, before, l) :: t.ended } with
          mutex := s.mutex.release (P.exclusive c) }
    else do
      let (shared, l) ← P.step s.shared l
      pure { s.move i { t with place := .inside c before l } with shared := shared }

omit [DecidableEq ι] in
/-- The thread is through, or has to wait. -/
def Stays (P : Protocol ε σ C L) (s : State ι σ C L) (i : ι) : Prop :=
  ((s.threads i).place = .idle ∧ (s.threads i).todo = []) ∨
    ∃ c, (s.threads i).place = .waiting c ∧ s.mutex.acquire (P.exclusive c) = none

/-- Everything that a step can do. -/
inductive Move (P : Protocol ε σ C L) (s : State ι σ C L) (i : ι) : State ι σ C L → Prop
  | stay (hstays : Stays P s i) : Move P s i s
  | ask {c : C} {cs : List C} (hplace : (s.threads i).place = .idle)
      (htodo : (s.threads i).todo = c :: cs) (hcheck : P.check s.shared c = .ok ⟨⟩) :
      Move P s i (s.move i { s.threads i with todo := cs, place := .waiting c })
  | enter {c : C} {m : Mutex} (hplace : (s.threads i).place = .waiting c)
      (hmutex : s.mutex.acquire (P.exclusive c) = some m) :
      Move P s i
        { s.move i { s.threads i with place := .inside c s.order.length (P.start c) } with
          mutex := m
          order := if P.exclusive c then s.order ++ [(i, c)] else s.order }
  | go {c : C} {before : ℕ} {l l' : L} {shared : σ} (hplace : (s.threads i).place = .inside c before l)
      (hover : P.isOver l = false) (hstep : P.step s.shared l = .ok (shared, l')) :
      Move P s i { s.move i { s.threads i with place := .inside c before l' } with shared := shared }
  | leave {c : C} {before : ℕ} {l : L} (hplace : (s.threads i).place = .inside c before l)
      (hover : P.isOver l = true) :
      Move P s i
        { s.move i { s.threads i with
            place := .idle, ended := (c, before, l) :: (s.threads i).ended } with
          mutex := s.mutex.release (P.exclusive c) }

variable {P : Protocol ε σ C L} {s t : State ι σ C L} {i : ι}

theorem act_cases (hrun : act P s i = .ok t) : Move P s i t := by
  unfold act at hrun
  cases hplace : (s.threads i).place with
  | idle =>
      simp only [hplace] at hrun
      cases htodo : (s.threads i).todo with
      | nil =>
          simp only [htodo] at hrun
          cases hrun
          exact .stay (Or.inl ⟨hplace, htodo⟩)
      | cons c cs =>
          simp only [htodo] at hrun
          rcases bind_eq_ok.1 hrun with ⟨_, hcheck, hrun⟩
          cases hrun
          exact .ask hplace htodo hcheck
  | waiting c =>
      simp only [hplace] at hrun
      cases hmutex : s.mutex.acquire (P.exclusive c) with
      | none =>
          simp only [hmutex] at hrun
          cases hrun
          exact .stay (Or.inr ⟨c, hplace, hmutex⟩)
      | some m =>
          simp only [hmutex] at hrun
          cases hrun
          exact .enter hplace hmutex
  | inside c before l =>
      simp only [hplace] at hrun
      cases hover : P.isOver l with
      | true =>
          rw [if_pos hover] at hrun
          cases hrun
          exact .leave hplace hover
      | false =>
          rw [if_neg (by simp [hover])] at hrun
          rcases bind_eq_ok.1 hrun with ⟨⟨shared, l'⟩, hstep, hrun⟩
          cases hrun
          exact .go hplace hover hstep

theorem run_cases (inv : State ι σ C L → Prop) (hmove : ∀ s i t, inv s → Move P s i t → inv t)
    {schedule : List ι} (hs : inv s) (hrun : run (act P) s schedule = .ok t) : inv t :=
  run_invariant inv (fun s i t h hact => hmove s i t h (act_cases hact)) hs hrun

/-! ## Mutual exclusion -/

omit [DecidableEq ι] in
/-- The thread is inside, in the given mode. -/
def Thread.Inside (P : Protocol ε σ C L) (t : Thread C L) (exclusive : Bool) : Prop :=
  ∃ c before l, t.place = .inside c before l ∧ P.exclusive c = exclusive

/-- The mutex knows who is inside, and a writer is alone there. -/
structure Excludes (P : Protocol ε σ C L) (s : State ι σ C L) : Prop where
  readers : ∃ R : Finset ι, (∀ i, i ∈ R ↔ (s.threads i).Inside P false) ∧ s.mutex.readers = R.card
  writer : s.mutex.writer = true ↔ ∃ i, (s.threads i).Inside P true
  alone : ∀ i, (s.threads i).Inside P true →
    ∀ j exclusive, (s.threads j).Inside P exclusive → j = i

omit [DecidableEq ι] in
theorem Thread.inside_of_place {t : Thread C L} {c : C} {before : ℕ} {l : L}
    (h : t.place = .inside c before l) (exclusive : Bool) :
    t.Inside P exclusive ↔ P.exclusive c = exclusive := by
  constructor
  · rintro ⟨c', before', l', hplace, hmode⟩
    rw [h] at hplace
    cases hplace
    exact hmode
  · intro hmode
    exact ⟨c, before, l, h, hmode⟩

omit [DecidableEq ι] in
theorem Thread.not_inside {t : Thread C L} (h : ∀ c before l, t.place ≠ .inside c before l)
    (exclusive : Bool) : ¬ t.Inside P exclusive := by
  rintro ⟨c, before, l, hplace, -⟩
  exact h c before l hplace

/-- Only the thread that moved can have gone in or out. -/
theorem inside_move (u : Thread C L) (j : ι) (exclusive : Bool) :
    ((s.move i u).threads j).Inside P exclusive ↔
      if j = i then u.Inside P exclusive else (s.threads j).Inside P exclusive := by
  unfold State.move
  by_cases hj : j = i
  · rw [if_pos hj, hj]
    simp only [Function.update_self]
  · rw [if_neg hj]
    simp only [Function.update_of_ne hj]

omit [DecidableEq ι] in
theorem Excludes.congr (h : Excludes P s) (hmutex : t.mutex = s.mutex)
    (hinside : ∀ j exclusive, (t.threads j).Inside P exclusive ↔ (s.threads j).Inside P exclusive) :
    Excludes P t where
  readers := by
    rcases h.readers with ⟨R, hR, hcard⟩
    exact ⟨R, fun j => by rw [hR, hinside], by rw [hmutex, hcard]⟩
  writer := by simp only [hmutex, h.writer, hinside]
  alone := by
    intro j hj k exclusive hk
    rw [hinside] at hj hk
    exact h.alone j hj k exclusive hk

omit [DecidableEq ι] in
theorem Excludes.no_writer (h : Excludes P s) (hwriter : s.mutex.writer = false) (j : ι) :
    ¬ (s.threads j).Inside P true := by
  intro hj
  have htrue := h.writer.2 ⟨j, hj⟩
  rw [hwriter] at htrue
  cases htrue

omit [DecidableEq ι] in
/-- A mutex that a writer can have is not held. -/
theorem Excludes.nobody (h : Excludes P s) (hwriter : s.mutex.writer = false)
    (hreaders : s.mutex.readers = 0) (j : ι) (exclusive : Bool) :
    ¬ (s.threads j).Inside P exclusive := by
  intro hj
  cases exclusive with
  | true => exact h.no_writer hwriter j hj
  | false =>
      rcases h.readers with ⟨R, hR, hcard⟩
      rw [hreaders, eq_comm, Finset.card_eq_zero] at hcard
      have hmem := (hR j).2 hj
      rw [hcard] at hmem
      simp at hmem

/-- The mutex lets a thread in. -/
theorem Excludes.admit (h : Excludes P s) {exclusive : Bool}
    (hout : ¬ (s.threads i).Inside P false) (hmutex : s.mutex.acquire exclusive = some t.mutex)
    (hinside : ∀ j mode, (t.threads j).Inside P mode ↔
      (j = i ∧ exclusive = mode) ∨ (s.threads j).Inside P mode) : Excludes P t := by
  cases exclusive with
  | true =>
      rcases Mutex.acquire_exclusive hmutex with ⟨hwriter, hreaders, hm⟩
      simp only [h.nobody hwriter hreaders, or_false] at hinside
      constructor
      · exact ⟨∅, fun j => by simp [hinside], by rw [hm]; rfl⟩
      · exact iff_of_true (by rw [hm]) ⟨i, (hinside i true).2 ⟨rfl, rfl⟩⟩
      · intro j hj k mode hk
        rw [((hinside j true).1 hj).1, ((hinside k mode).1 hk).1]
  | false =>
      rcases Mutex.acquire_shared hmutex with ⟨hwriter, hm⟩
      have hnone : ∀ j, ¬ (t.threads j).Inside P true := by
        intro j hj
        rcases (hinside j true).1 hj with ⟨-, hfalse⟩ | hj
        · cases hfalse
        · exact h.no_writer hwriter j hj
      rcases h.readers with ⟨R, hR, hcard⟩
      constructor
      · refine ⟨insert i R, fun j => ?_, ?_⟩
        · rw [hinside, Finset.mem_insert, hR]
          simp
        · rw [Finset.card_insert_of_notMem (fun hi => hout ((hR i).1 hi)), hm, hcard]
      · refine iff_of_false (by simp [hm]) ?_
        rintro ⟨j, hj⟩
        exact hnone j hj
      · intro j hj
        exact absurd hj (hnone j)

/-- A thread lets go of the mutex. -/
theorem Excludes.dismiss (h : Excludes P s) {exclusive : Bool}
    (hin : ∀ mode, (s.threads i).Inside P mode ↔ exclusive = mode)
    (hmutex : t.mutex = s.mutex.release exclusive)
    (hinside : ∀ j mode, (t.threads j).Inside P mode ↔ j ≠ i ∧ (s.threads j).Inside P mode) :
    Excludes P t := by
  rcases h.readers with ⟨R, hR, hcard⟩
  cases exclusive with
  | true =>
      have hnobody : ∀ j mode, ¬ (j ≠ i ∧ (s.threads j).Inside P mode) :=
        fun j mode hj => hj.1 (h.alone i ((hin true).2 rfl) j mode hj.2)
      simp only [hnobody, iff_false] at hinside
      have hempty : R = ∅ := by
        rw [Finset.eq_empty_iff_forall_notMem]
        intro j hj
        have hfalse := (hR j).1 hj
        rw [h.alone i ((hin true).2 rfl) j false hfalse, hin] at hfalse
        cases hfalse
      constructor
      · exact ⟨∅, fun j => by simp [hinside], by rw [hmutex, ← hempty, ← hcard]; rfl⟩
      · refine iff_of_false (by simp [hmutex, Mutex.release]) ?_
        rintro ⟨j, hj⟩
        exact hinside j true hj
      · intro j hj
        exact absurd hj (hinside j true)
  | false =>
      have hi := (hin false).2 rfl
      have hnone : ∀ j, ¬ (s.threads j).Inside P true := by
        intro j hj
        have heq := h.alone j hj i false hi
        rw [← heq, hin] at hj
        cases hj
      have hwriter : s.mutex.writer = false := by
        rw [← Bool.not_eq_true, h.writer]
        rintro ⟨j, hj⟩
        exact hnone j hj
      constructor
      · refine ⟨R.erase i, fun j => ?_, ?_⟩
        · rw [hinside, Finset.mem_erase, hR]
        · rw [Finset.card_erase_of_mem ((hR i).2 hi), ← hcard, hmutex]
          rfl
      · refine iff_of_false (by simp [hmutex, Mutex.release, hwriter]) ?_
        rintro ⟨j, hj⟩
        exact hnone j ((hinside j true).1 hj).2
      · intro j hj
        exact absurd ((hinside j true).1 hj).2 (hnone j)

theorem Move.excludes (h : Excludes P s) (hmove : Move P s i t) : Excludes P t := by
  cases hmove with
  | stay _ => exact h
  | ask hplace _ _ =>
      refine h.congr rfl ?_
      intro j mode
      rw [inside_move]
      split
      · rename_i hj
        rw [hj]
        exact iff_of_false (Thread.not_inside (by simp) mode)
          (Thread.not_inside (by simp [hplace]) mode)
      · rfl
  | enter hplace hmutex =>
      have hout := Thread.not_inside (P := P) (t := s.threads i) (by simp [hplace])
      refine h.admit (hout false) hmutex ?_
      intro j mode
      rw [inside_move]
      split
      · rename_i hj
        rw [Thread.inside_of_place rfl, hj]
        simp [hout mode]
      · rename_i hj
        simp [hj]
  | go hplace _ _ =>
      refine h.congr rfl ?_
      intro j mode
      rw [inside_move]
      split
      · rename_i hj
        rw [hj, Thread.inside_of_place hplace, Thread.inside_of_place rfl]
      · rfl
  | leave hplace _ =>
      refine h.dismiss (Thread.inside_of_place hplace) rfl ?_
      intro j mode
      rw [inside_move]
      split
      · rename_i hj
        exact iff_of_false (Thread.not_inside (by simp) mode) (by simp [hj])
      · rename_i hj
        simp [hj]

omit [DecidableEq ι] in
theorem start_excludes (shared : σ) (programs : ι → List C) :
    Excludes P (State.start shared programs : State ι σ C L) := by
  have hnobody : ∀ j exclusive,
      ¬ ((State.start shared programs : State ι σ C L).threads j).Inside P exclusive :=
    fun j exclusive => Thread.not_inside (by simp [State.start]) exclusive
  constructor
  · exact ⟨∅, fun j => by simp [hnobody], rfl⟩
  · refine iff_of_false (by simp [State.start, Mutex.free]) ?_
    rintro ⟨j, hj⟩
    exact hnobody j true hj
  · intro j hj
    exact absurd hj (hnobody j true)

/-- Whatever the schedule, a writer is alone inside. -/
theorem run_excludes {shared : σ} {programs : ι → List C} {schedule : List ι}
    (hrun : run (act P) (State.start shared programs) schedule = .ok s) : Excludes P s :=
  run_cases (Excludes P) (fun _ _ _ h hmove => hmove.excludes h) (start_excludes shared programs) hrun

/-! ## The proof rule -/

/-- `idle` holds while no writer is inside, `writer` of the one that is, `reader`
of each reader, and `ended` of what a call is left with; all of them know the
exclusive calls that were let in before. A reader's step must not disturb the
other readers. -/
structure Rule (P : Protocol ε σ C L) (idle : List C → σ → Prop)
    (writer reader : List C → C → σ → L → Prop) (ended : List C → C → L → Prop) : Prop where
  writer_enter : ∀ cs c s, P.exclusive c = true → idle cs s → writer cs c s (P.start c)
  writer_step : ∀ cs c s s' l l', P.exclusive c = true → writer cs c s l → P.isOver l = false →
    P.step s l = .ok (s', l') → writer cs c s' l'
  writer_leave : ∀ cs c s l, P.exclusive c = true → writer cs c s l → P.isOver l = true →
    idle (cs ++ [c]) s ∧ ended cs c l
  reader_enter : ∀ cs c s, P.exclusive c = false → idle cs s → reader cs c s (P.start c)
  reader_step : ∀ cs c s s' l l', P.exclusive c = false → idle cs s → reader cs c s l →
    P.isOver l = false → P.step s l = .ok (s', l') →
      idle cs s' ∧ reader cs c s' l' ∧ ∀ c₂ l₂, reader cs c₂ s l₂ → reader cs c₂ s' l₂
  reader_leave : ∀ cs c s l, P.exclusive c = false → reader cs c s l → P.isOver l = true →
    ended cs c l

/-- What the rule promises of a state. -/
structure Promised (P : Protocol ε σ C L) (idle : List C → σ → Prop)
    (writer reader : List C → C → σ → L → Prop) (ended : List C → C → L → Prop)
    (s : State ι σ C L) : Prop where
  excludes : Excludes P s
  idle : (∀ i, ¬ (s.threads i).Inside P true) → idle s.calls s.shared
  writer : ∀ i c before l, (s.threads i).place = .inside c before l → P.exclusive c = true →
    ∃ cs, s.calls = cs ++ [c] ∧ before = cs.length ∧ writer cs c s.shared l
  reader : ∀ i c before l, (s.threads i).place = .inside c before l → P.exclusive c = false →
    before = s.calls.length ∧ reader s.calls c s.shared l
  ended : ∀ i c before l, (c, before, l) ∈ (s.threads i).ended →
    before ≤ s.calls.length ∧ (P.exclusive c = true → s.calls[before]? = some c) ∧
      ended (s.calls.take before) c l

theorem move_threads (u : Thread C L) (j : ι) :
    (s.move i u).threads j = if j = i then u else s.threads j :=
  Function.update_apply _ _ _ _

section Rule

variable {idle : List C → σ → Prop} {writer reader : List C → C → σ → L → Prop}
  {ended : List C → C → L → Prop}

omit [DecidableEq ι] in
theorem start_promised {shared : σ} (hidle : idle [] shared) (programs : ι → List C) :
    Promised P idle writer reader ended (State.start shared programs : State ι σ C L) where
  excludes := start_excludes shared programs
  idle := fun _ => hidle
  writer := by simp [State.start]
  reader := by simp [State.start]
  ended := by simp [State.start]

/-- A move that ends no call. -/
theorem Promised.ended_move (h : Promised P idle writer reader ended s) {u : Thread C L}
    (hu : u.ended = (s.threads i).ended) (j : ι) (c : C) (before : ℕ) (l : L)
    (hj : (c, before, l) ∈ ((s.move i u).threads j).ended) :
    before ≤ s.calls.length ∧ (P.exclusive c = true → s.calls[before]? = some c) ∧
      ended (s.calls.take before) c l := by
  rw [move_threads] at hj
  split at hj
  · exact h.ended i c before l (hu ▸ hj)
  · exact h.ended j c before l hj

theorem ask_promised (h : Promised P idle writer reader ended s) {c : C} {cs : List C}
    (hplace : (s.threads i).place = .idle) (htodo : (s.threads i).todo = c :: cs)
    (hcheck : P.check s.shared c = .ok ⟨⟩) :
    Promised P idle writer reader ended
      (s.move i { s.threads i with todo := cs, place := .waiting c }) where
  excludes := (Move.ask hplace htodo hcheck).excludes h.excludes
  idle := by
    intro hnone
    refine h.idle fun j hj => ?_
    by_cases hji : j = i
    · rw [hji] at hj
      exact Thread.not_inside (by simp [hplace]) true hj
    · refine hnone j ?_
      rwa [inside_move, if_neg hji]
  writer := by
    intro j c' before l hj hmode
    rw [move_threads] at hj
    split at hj
    · cases hj
    · exact h.writer j c' before l hj hmode
  reader := by
    intro j c' before l hj hmode
    rw [move_threads] at hj
    split at hj
    · cases hj
    · exact h.reader j c' before l hj hmode
  ended := h.ended_move rfl

/-- A writer goes in. -/
theorem enter_writer_promised (hrule : Rule P idle writer reader ended)
    (h : Promised P idle writer reader ended s) {c : C} {m : Mutex}
    (hplace : (s.threads i).place = .waiting c) (hmode : P.exclusive c = true)
    (hmutex : s.mutex.acquire (P.exclusive c) = some m) :
    Promised P idle writer reader ended
      { s.move i { s.threads i with place := .inside c s.order.length (P.start c) } with
        mutex := m
        order := if P.exclusive c then s.order ++ [(i, c)] else s.order } := by
  have hexcludes := (Move.enter hplace hmutex).excludes h.excludes
  have hi : ((s.move i { s.threads i with
      place := .inside c s.order.length (P.start c) }).threads i).Inside P true := by
    rw [inside_move, if_pos rfl, Thread.inside_of_place rfl, hmode]
  rw [hmode] at hmutex
  rcases Mutex.acquire_exclusive hmutex with ⟨hwriter, hreaders, -⟩
  have hidle := h.idle (h.excludes.no_writer hwriter)
  rw [if_pos hmode] at hexcludes ⊢
  refine ⟨hexcludes, ?_, ?_, ?_, ?_⟩
  · intro hnone
    exact absurd hi (hnone i)
  · intro j c' before l hj hmode'
    have hji := hexcludes.alone i hi j true (by rwa [Thread.inside_of_place hj])
    rw [hji] at hj
    have heq : Place.inside c s.order.length (P.start c) = .inside c' before l := by
      rw [← hj]
      simp [State.move]
    cases heq
    exact ⟨s.calls, by simp [State.calls], by simp [State.calls],
      hrule.writer_enter _ _ _ hmode hidle⟩
  · intro j c' before l hj hmode'
    have hji := hexcludes.alone i hi j false (by rwa [Thread.inside_of_place hj])
    rw [hji] at hj
    have heq : Place.inside c s.order.length (P.start c) = .inside c' before l := by
      rw [← hj]
      simp [State.move]
    cases heq
    rw [hmode] at hmode'
    cases hmode'
  · intro j c' before l hj
    rcases h.ended_move (u := { s.threads i with
      place := .inside c s.order.length (P.start c) }) rfl j c' before l hj with
      ⟨hle, hmade, hended⟩
    refine ⟨by simp only [State.calls, List.length_map, List.length_append] at hle ⊢; omega, ?_, ?_⟩
    · intro hmode'
      have hat := hmade hmode'
      have hlt : before < s.calls.length := (List.getElem?_eq_some_iff.1 hat).1
      simp only [State.calls, List.map_append] at hat hlt ⊢
      rwa [List.getElem?_append_left hlt]
    · simp only [State.calls, List.map_append] at hle hended ⊢
      rwa [List.take_append_of_le_length hle]

/-- A reader goes in. -/
theorem enter_reader_promised (hrule : Rule P idle writer reader ended)
    (h : Promised P idle writer reader ended s) {c : C} {m : Mutex}
    (hplace : (s.threads i).place = .waiting c) (hmode : P.exclusive c = false)
    (hmutex : s.mutex.acquire (P.exclusive c) = some m) :
    Promised P idle writer reader ended
      { s.move i { s.threads i with place := .inside c s.order.length (P.start c) } with
        mutex := m
        order := if P.exclusive c then s.order ++ [(i, c)] else s.order } := by
  have hexcludes := (Move.enter hplace hmutex).excludes h.excludes
  rw [hmode] at hmutex
  have hnone := h.excludes.no_writer (Mutex.acquire_shared hmutex).1
  have hidle := h.idle hnone
  rw [if_neg (by simp [hmode])] at hexcludes ⊢
  refine ⟨hexcludes, fun _ => hidle, ?_, ?_, h.ended_move rfl⟩
  · intro j c' before l hj hmode'
    simp only [move_threads] at hj
    split at hj
    · cases hj
      rw [hmode] at hmode'
      cases hmode'
    · exact absurd ((Thread.inside_of_place hj true).2 hmode') (hnone j)
  · intro j c' before l hj hmode'
    simp only [move_threads] at hj
    split at hj
    · cases hj
      exact ⟨by simp [State.calls], hrule.reader_enter _ _ _ hmode hidle⟩
    · exact h.reader j c' before l hj hmode'

/-- A step of the writer: there is nobody else whom it could disturb. -/
theorem go_writer_promised (hrule : Rule P idle writer reader ended)
    (h : Promised P idle writer reader ended s) {c : C} {before : ℕ} {l l' : L} {shared : σ}
    (hplace : (s.threads i).place = .inside c before l) (hmode : P.exclusive c = true)
    (hover : P.isOver l = false) (hstep : P.step s.shared l = .ok (shared, l')) :
    Promised P idle writer reader ended
      { s.move i { s.threads i with place := .inside c before l' } with shared := shared } := by
  have hi : (s.threads i).Inside P true := (Thread.inside_of_place hplace true).2 hmode
  have hi' : ((s.move i { s.threads i with place := .inside c before l' }).threads i).Inside P
      true := by
    rw [inside_move, if_pos rfl, Thread.inside_of_place rfl, hmode]
  have hplace' : ∀ j c' before' l₂ mode, P.exclusive c' = mode →
      ((s.move i { s.threads i with place := .inside c before l' }).threads j).place =
        .inside c' before' l₂ → c = c' ∧ before = before' ∧ l' = l₂ := by
    intro j c' before' l₂ mode hmode' hj
    rw [move_threads] at hj
    split at hj
    · cases hj
      exact ⟨rfl, rfl, rfl⟩
    · rename_i hji
      have halone := h.excludes.alone i hi j mode ((Thread.inside_of_place hj mode).2 hmode')
      exact absurd halone hji
  refine ⟨(Move.go hplace hover hstep).excludes h.excludes, ?_, ?_, ?_, h.ended_move rfl⟩
  · intro hnone
    exact absurd hi' (hnone i)
  · intro j c' before' l₂ hj hmode'
    rcases hplace' j c' before' l₂ true hmode' hj with ⟨rfl, rfl, rfl⟩
    rcases h.writer i c before l hplace hmode with ⟨cs, hcalls, hbefore, hwriter⟩
    exact ⟨cs, hcalls, hbefore, hrule.writer_step _ _ _ _ _ _ hmode hwriter hover hstep⟩
  · intro j c' before' l₂ hj hmode'
    rcases hplace' j c' before' l₂ false hmode' hj with ⟨rfl, rfl, rfl⟩
    rw [hmode] at hmode'
    cases hmode'

/-- A step of a reader: there is no writer, and the rule looks after the other
readers. -/
theorem go_reader_promised (hrule : Rule P idle writer reader ended)
    (h : Promised P idle writer reader ended s) {c : C} {before : ℕ} {l l' : L} {shared : σ}
    (hplace : (s.threads i).place = .inside c before l) (hmode : P.exclusive c = false)
    (hover : P.isOver l = false) (hstep : P.step s.shared l = .ok (shared, l')) :
    Promised P idle writer reader ended
      { s.move i { s.threads i with place := .inside c before l' } with shared := shared } := by
  have hi : (s.threads i).Inside P false := (Thread.inside_of_place hplace false).2 hmode
  have hnone : ∀ j, ¬ (s.threads j).Inside P true := by
    intro j hj
    have heq := h.excludes.alone j hj i false hi
    rw [← heq, Thread.inside_of_place hplace, hmode] at hj
    cases hj
  rcases h.reader i c before l hplace hmode with ⟨hbefore, hreader⟩
  rcases hrule.reader_step _ _ _ _ _ _ hmode (h.idle hnone) hreader hover hstep with
    ⟨hidle, hreader', hothers⟩
  refine ⟨(Move.go hplace hover hstep).excludes h.excludes, fun _ => hidle, ?_, ?_,
    h.ended_move rfl⟩
  · intro j c' before' l₂ hj hmode'
    simp only [move_threads] at hj
    split at hj
    · cases hj
      rw [hmode] at hmode'
      cases hmode'
    · exact absurd ((Thread.inside_of_place hj true).2 hmode') (hnone j)
  · intro j c' before' l₂ hj hmode'
    simp only [move_threads] at hj
    split at hj
    · cases hj
      exact ⟨hbefore, hreader'⟩
    · rcases h.reader j c' before' l₂ hj hmode' with ⟨hbefore', hreader₂⟩
      exact ⟨hbefore', hothers c' l₂ hreader₂⟩

/-- A call ends. -/
theorem leave_promised (hrule : Rule P idle writer reader ended)
    (h : Promised P idle writer reader ended s) {c : C} {before : ℕ} {l : L}
    (hplace : (s.threads i).place = .inside c before l) (hover : P.isOver l = true) :
    Promised P idle writer reader ended
      { s.move i { s.threads i with
          place := .idle, ended := (c, before, l) :: (s.threads i).ended } with
        mutex := s.mutex.release (P.exclusive c) } := by
  have hnew : (P.exclusive c = true → idle s.calls s.shared) ∧ before ≤ s.calls.length ∧
      (P.exclusive c = true → s.calls[before]? = some c) ∧ ended (s.calls.take before) c l := by
    cases hmode : P.exclusive c with
    | true =>
        rcases h.writer i c before l hplace hmode with ⟨cs, hcalls, rfl, hwriter⟩
        rcases hrule.writer_leave cs c s.shared l hmode hwriter hover with ⟨hidle, hended⟩
        rw [hcalls, List.take_left]
        exact ⟨fun _ => hidle, by simp, fun _ => List.getElem?_concat_length, hended⟩
    | false =>
        rcases h.reader i c before l hplace hmode with ⟨rfl, hreader⟩
        rw [List.take_length]
        exact ⟨fun hfalse => absurd hfalse Bool.false_ne_true, le_refl _,
          fun hfalse => absurd hfalse Bool.false_ne_true, hrule.reader_leave _ c s.shared l hmode hreader hover⟩
  have hplace' : ∀ j c' before' l', ((s.move i { s.threads i with
      place := .idle, ended := (c, before, l) :: (s.threads i).ended }).threads j).place =
        .inside c' before' l' → (s.threads j).place = .inside c' before' l' := by
    intro j c' before' l' hj
    rw [move_threads] at hj
    split at hj
    · cases hj
    · exact hj
  refine ⟨(Move.leave hplace hover).excludes h.excludes, ?_, ?_, ?_, ?_⟩
  · intro hnone
    by_cases hmode : P.exclusive c = true
    · exact hnew.1 hmode
    · -- a reader goes, and no writer was there before
      refine h.idle fun j hj => ?_
      by_cases hji : j = i
      · rw [hji, Thread.inside_of_place hplace] at hj
        exact hmode hj
      · refine hnone j ?_
        rwa [inside_move, if_neg hji]
  · exact fun j c' before' l' hj => h.writer j c' before' l' (hplace' j c' before' l' hj)
  · exact fun j c' before' l' hj => h.reader j c' before' l' (hplace' j c' before' l' hj)
  · intro j c' before' l' hj
    simp only [move_threads] at hj
    split at hj
    · rcases List.mem_cons.1 hj with heq | hj
      · cases heq
        exact hnew.2
      · exact h.ended i c' before' l' hj
    · exact h.ended j c' before' l' hj

theorem Move.promised (hrule : Rule P idle writer reader ended)
    (h : Promised P idle writer reader ended s) (hmove : Move P s i t) :
    Promised P idle writer reader ended t := by
  cases hmove with
  | stay _ => exact h
  | ask hplace htodo hcheck => exact ask_promised h hplace htodo hcheck
  | enter hplace hmutex =>
      rename_i c m
      cases hmode : P.exclusive c with
      | true =>
          have hafter := enter_writer_promised hrule h hplace hmode hmutex
          rwa [hmode] at hafter
      | false =>
          have hafter := enter_reader_promised hrule h hplace hmode hmutex
          rwa [hmode] at hafter
  | go hplace hover hstep =>
      rename_i c before l l' shared
      cases hmode : P.exclusive c with
      | true => exact go_writer_promised hrule h hplace hmode hover hstep
      | false => exact go_reader_promised hrule h hplace hmode hover hstep
  | leave hplace hover => exact leave_promised hrule h hplace hover

/-- What the rule asks of the calls holds in every state of every schedule. -/
theorem run_promised (hrule : Rule P idle writer reader ended) {shared : σ} (hidle : idle [] shared)
    {programs : ι → List C} {schedule : List ι}
    (hrun : run (act P) (State.start shared programs) schedule = .ok s) :
    Promised P idle writer reader ended s :=
  run_cases (Promised P idle writer reader ended) (fun _ _ _ h hmove => hmove.promised hrule h)
    (start_promised hidle programs) hrun

end Rule

end SharedMutex
