import Smallkv.Lib.Rounds

/-!
# Striped — a state in parts, with a mutex for each part

A call goes to one part of the state, holds the mutex of that part from its
first step to its last one, and leaves the other parts alone. `remaining` tells
where a call stands in terms of whole calls (`Whole`): then the calls are atomic,
in the order in which they return and over all parts at once (`run_atomic`). A
thread waits for nobody but the one that is in the part it asks for, so all of
them get through (`run_finishes`).
-/

namespace Striped

open Fallible

/-- Calls `C`, with their steps on the part `σ` they go to. -/
structure Sections (ε : Type u) (κ σ C L A : Type v) where
  part : C → κ
  start : C → L
  /-- the answer of a call that is through -/
  result : L → Option A
  step : σ → L → Except ε (σ × L)

inductive Place (C L : Type v) where
  | idle
  | waiting (c : C)
  | inside (c : C) (l : L)

structure Thread (C L : Type v) where
  todo : List C
  place : Place C L

/-- `made` remembers the calls with their answers, in the order in which they
returned. -/
structure State (ι κ σ C L A : Type v) where
  shared : κ → σ
  held : κ → Bool
  threads : ι → Thread C L
  made : List (ι × C × A)

variable {ε : Type u} {ι κ σ C L A : Type v}

def State.start (shared : κ → σ) (programs : ι → List C) : State ι κ σ C L A :=
  ⟨shared, fun _ => false, fun i => ⟨programs i, .idle⟩, []⟩

/-- The calls that have returned. -/
def State.calls (s : State ι κ σ C L A) : List C := s.made.map fun e => e.2.1

def State.answers (s : State ι κ σ C L A) : List A := s.made.map fun e => e.2.2

/-- Every thread is through. -/
def State.Finished (s : State ι κ σ C L A) : Prop :=
  ∀ i, (s.threads i).place = .idle ∧ (s.threads i).todo = []

variable [DecidableEq ι] [DecidableEq κ]

def State.move (s : State ι κ σ C L A) (i : ι) (t : Thread C L) : State ι κ σ C L A :=
  { s with threads := Function.update s.threads i t }

/-- The next step of a thread. -/
def act (S : Sections ε κ σ C L A) (s : State ι κ σ C L A) (i : ι) :
    Except ε (State ι κ σ C L A) :=
  let t := s.threads i
  match t.place with
  | .idle =>
    match t.todo with
    | [] => pure s
    | c :: cs => pure (s.move i ⟨cs, .waiting c⟩)
  | .waiting c =>
    if s.held (S.part c) then pure s
    else
      pure
        { s.move i ⟨t.todo, .inside c (S.start c)⟩ with
          held := Function.update s.held (S.part c) true }
  | .inside c l =>
    match S.result l with
    | some a =>
      pure
        { s.move i ⟨t.todo, .idle⟩ with
          held := Function.update s.held (S.part c) false
          made := s.made ++ [(i, c, a)] }
    | none => do
      let (x, l) ← S.step (s.shared (S.part c)) l
      pure
        { s.move i ⟨t.todo, .inside c l⟩ with
          shared := Function.update s.shared (S.part c) x }

omit [DecidableEq ι] [DecidableEq κ] in
/-- The thread is through, or has to wait. -/
def Stays (S : Sections ε κ σ C L A) (s : State ι κ σ C L A) (i : ι) : Prop :=
  ((s.threads i).place = .idle ∧ (s.threads i).todo = []) ∨
    ∃ c, (s.threads i).place = .waiting c ∧ s.held (S.part c) = true

/-- Everything that a step can do. -/
inductive Move (S : Sections ε κ σ C L A) (s : State ι κ σ C L A) (i : ι) :
    State ι κ σ C L A → Prop
  | stay (hstays : Stays S s i) : Move S s i s
  | ask {c : C} {cs : List C} (hplace : (s.threads i).place = .idle)
      (htodo : (s.threads i).todo = c :: cs) : Move S s i (s.move i ⟨cs, .waiting c⟩)
  | enter {c : C} (hplace : (s.threads i).place = .waiting c) (hfree : s.held (S.part c) = false) :
      Move S s i
        { s.move i ⟨(s.threads i).todo, .inside c (S.start c)⟩ with
          held := Function.update s.held (S.part c) true }
  | go {c : C} {l l' : L} {x : σ} (hplace : (s.threads i).place = .inside c l)
      (hresult : S.result l = none) (hstep : S.step (s.shared (S.part c)) l = .ok (x, l')) :
      Move S s i
        { s.move i ⟨(s.threads i).todo, .inside c l'⟩ with
          shared := Function.update s.shared (S.part c) x }
  | leave {c : C} {l : L} {a : A} (hplace : (s.threads i).place = .inside c l)
      (hresult : S.result l = some a) :
      Move S s i
        { s.move i ⟨(s.threads i).todo, .idle⟩ with
          held := Function.update s.held (S.part c) false
          made := s.made ++ [(i, c, a)] }

variable {S : Sections ε κ σ C L A} {s t : State ι κ σ C L A} {i : ι}

theorem act_cases (hrun : act S s i = .ok t) : Move S s i t := by
  unfold act at hrun
  cases hplace : (s.threads i).place with
  | idle =>
      simp only [hplace] at hrun
      cases htodo : (s.threads i).todo with
      | nil =>
          simp only [htodo] at hrun
          cases hrun
          exact .stay (Or.inl ⟨hplace, htodo⟩)
      | cons c cs =>
          simp only [htodo] at hrun
          cases hrun
          exact .ask hplace htodo
  | waiting c =>
      simp only [hplace] at hrun
      cases hheld : s.held (S.part c) with
      | true =>
          rw [if_pos hheld] at hrun
          cases hrun
          exact .stay (Or.inr ⟨c, hplace, hheld⟩)
      | false =>
          rw [if_neg (by simp [hheld])] at hrun
          cases hrun
          exact .enter hplace hheld
  | inside c l =>
      simp only [hplace] at hrun
      cases hresult : S.result l with
      | some a =>
          simp only [hresult] at hrun
          cases hrun
          exact .leave hplace hresult
      | none =>
          simp only [hresult] at hrun
          rcases bind_eq_ok.1 hrun with ⟨⟨x, l'⟩, hstep, hrun⟩
          cases hrun
          exact .go hplace hresult hstep

/-- A step fails only if a step of the call it belongs to does. -/
theorem act_ok (hstep : ∀ c l, (s.threads i).place = .inside c l → S.result l = none →
    ∃ r, S.step (s.shared (S.part c)) l = .ok r) : ∃ t, act S s i = .ok t := by
  unfold act
  cases hplace : (s.threads i).place with
  | idle =>
      simp only [hplace]
      split
      · exact ⟨_, rfl⟩
      · exact ⟨_, rfl⟩
  | waiting c =>
      simp only [hplace]
      split
      · exact ⟨_, rfl⟩
      · exact ⟨_, rfl⟩
  | inside c l =>
      simp only [hplace]
      split
      · exact ⟨_, rfl⟩
      · rename_i hresult
        rcases hstep c l hplace hresult with ⟨r, hr⟩
        rw [hr, ok_bind]
        exact ⟨_, rfl⟩

/-- A thread that asks and stays found the mutex taken. -/
theorem held_of_waits {c : C} (hplace : (s.threads i).place = .waiting c)
    (hstays : act S s i = .ok s) : s.held (S.part c) = true := by
  rw [← Bool.not_eq_false]
  intro hfree
  have hmoves : act S s i = .ok
      { s.move i ⟨(s.threads i).todo, .inside c (S.start c)⟩ with
        held := Function.update s.held (S.part c) true } := by
    unfold act
    simp only [hplace]
    rw [if_neg (by simp [hfree])]
    rfl
  rw [hmoves] at hstays
  have hthreads := congrArg (fun t => (t.threads i).place) (Except.ok.inj hstays)
  simp [State.move, hplace] at hthreads

omit [DecidableEq κ] in
theorem move_threads (u : Thread C L) (j : ι) :
    (s.move i u).threads j = if j = i then u else s.threads j :=
  Function.update_apply _ _ _ _

/-! ## Mutual exclusion -/

/-- The thread is inside a call on the part. -/
def Thread.In (S : Sections ε κ σ C L A) (t : Thread C L) (k : κ) : Prop :=
  ∃ c l, t.place = .inside c l ∧ S.part c = k

/-- A mutex knows whether somebody is in its part, and there is at most one. -/
structure Excludes (S : Sections ε κ σ C L A) (s : State ι κ σ C L A) : Prop where
  held : ∀ k, s.held k = true ↔ ∃ i, (s.threads i).In S k
  alone : ∀ k i j, (s.threads i).In S k → (s.threads j).In S k → i = j

omit [DecidableEq ι] [DecidableEq κ] in
theorem Thread.in_of_place {t : Thread C L} {c : C} {l : L} (h : t.place = .inside c l) (k : κ) :
    t.In S k ↔ S.part c = k := by
  constructor
  · rintro ⟨c', l', hplace, hpart⟩
    rw [h] at hplace
    cases hplace
    exact hpart
  · intro hpart
    exact ⟨c, l, h, hpart⟩

omit [DecidableEq ι] [DecidableEq κ] in
theorem Thread.not_in {t : Thread C L} (h : ∀ c l, t.place ≠ .inside c l) (k : κ) : ¬ t.In S k := by
  rintro ⟨c, l, hplace, -⟩
  exact h c l hplace

omit [DecidableEq κ] in
/-- Only the thread that moved can have gone in or out. -/
theorem in_move (u : Thread C L) (j : ι) (k : κ) :
    ((s.move i u).threads j).In S k ↔ if j = i then u.In S k else (s.threads j).In S k := by
  rw [move_threads]
  split
  · rfl
  · rfl

omit [DecidableEq ι] [DecidableEq κ] in
theorem Excludes.nobody (h : Excludes S s) {k : κ} (hfree : s.held k = false) (j : ι) :
    ¬ (s.threads j).In S k := by
  intro hj
  have hheld := (h.held k).2 ⟨j, hj⟩
  rw [hfree] at hheld
  cases hheld

omit [DecidableEq ι] [DecidableEq κ] in
/-- Where nobody went in or out, nothing has changed. -/
theorem Excludes.congr (h : Excludes S s) (hheld : t.held = s.held)
    (hin : ∀ j k, (t.threads j).In S k ↔ (s.threads j).In S k) : Excludes S t where
  held k := by simp only [hheld, h.held, hin]
  alone k i j hi hj := h.alone k i j ((hin i k).1 hi) ((hin j k).1 hj)

theorem Move.excludes (h : Excludes S s) (hmove : Move S s i t) : Excludes S t := by
  cases hmove with
  | stay _ => exact h
  | ask hplace _ =>
      refine h.congr rfl ?_
      intro j k
      rw [in_move]
      split
      · rename_i hj
        rw [hj]
        exact iff_of_false (Thread.not_in (by simp) k) (Thread.not_in (by simp [hplace]) k)
      · rfl
  | enter hplace hfree =>
      rename_i c
      have hin : ∀ j k,
          ((s.move i ⟨(s.threads i).todo, .inside c (S.start c)⟩).threads j).In S k ↔
            (j = i ∧ S.part c = k) ∨ (s.threads j).In S k := by
        intro j k
        rw [in_move]
        split
        · rename_i hj
          rw [Thread.in_of_place rfl, hj]
          have hout := Thread.not_in (S := S) (t := s.threads i) (by simp [hplace]) k
          simp [hout]
        · rename_i hj
          simp [hj]
      constructor
      · intro k
        simp only [hin, Function.update_apply]
        split
        · rename_i hk
          exact iff_of_true rfl ⟨i, Or.inl ⟨rfl, hk.symm⟩⟩
        · rename_i hk
          have hk' : S.part c ≠ k := fun heq => hk heq.symm
          simp [hk', h.held]
      · intro k j j' hj hj'
        rcases (hin j k).1 hj with ⟨hji, hk⟩ | hj
        · rcases (hin j' k).1 hj' with ⟨hji', -⟩ | hj'
          · rw [hji, hji']
          · exact absurd hj' (h.nobody (hk ▸ hfree) j')
        · rcases (hin j' k).1 hj' with ⟨-, hk⟩ | hj'
          · exact absurd hj (h.nobody (hk ▸ hfree) j)
          · exact h.alone k j j' hj hj'
  | go hplace _ _ =>
      refine h.congr rfl ?_
      intro j k
      rw [in_move]
      split
      · rename_i hj
        rw [hj, Thread.in_of_place hplace, Thread.in_of_place rfl]
      · rfl
  | leave hplace hresult =>
      rename_i c l a
      have hi : (s.threads i).In S (S.part c) := (Thread.in_of_place hplace _).2 rfl
      have hin : ∀ j k, ((s.move i ⟨(s.threads i).todo, .idle⟩).threads j).In S k ↔
          j ≠ i ∧ (s.threads j).In S k := by
        intro j k
        rw [in_move]
        split
        · rename_i hj
          exact iff_of_false (Thread.not_in (by simp) k) (by simp [hj])
        · rename_i hj
          simp [hj]
      constructor
      · intro k
        simp only [hin, Function.update_apply]
        split
        · rename_i hk
          refine iff_of_false Bool.false_ne_true ?_
          rintro ⟨j, hne, hj⟩
          exact hne (h.alone k j i hj (hk ▸ hi))
        · rename_i hk
          rw [h.held]
          constructor
          · rintro ⟨j, hj⟩
            refine ⟨j, ?_, hj⟩
            rintro rfl
            exact hk ((Thread.in_of_place hplace k).1 hj).symm
          · rintro ⟨j, -, hj⟩
            exact ⟨j, hj⟩
      · intro k j j' hj hj'
        exact h.alone k j j' ((hin j k).1 hj).2 ((hin j' k).1 hj').2

omit [DecidableEq ι] [DecidableEq κ] in
theorem start_excludes (shared : κ → σ) (programs : ι → List C) :
    Excludes S (State.start shared programs : State ι κ σ C L A) := by
  have hnobody : ∀ j k, ¬ ((State.start shared programs : State ι κ σ C L A).threads j).In S k :=
    fun j k => Thread.not_in (by simp [State.start]) k
  constructor
  · intro k
    refine iff_of_false (by simp [State.start]) ?_
    rintro ⟨j, hj⟩
    exact hnobody j k hj
  · intro k j j' hj
    exact absurd hj (hnobody j k)

theorem run_excludes {shared : κ → σ} {programs : ι → List C} {schedule : List ι}
    (hrun : run (act S) (State.start shared programs) schedule = .ok s) : Excludes S s :=
  run_invariant (Excludes S) (fun _ _ _ h hact => (act_cases hact).excludes h)
    (start_excludes shared programs) hrun

/-! ## The order of the calls -/

/-- The calls that have not returned. -/
def Thread.left (t : Thread C L) : List C :=
  match t.place with
  | .idle => t.todo
  | .waiting c => c :: t.todo
  | .inside c _ => c :: t.todo

/-- The calls of one thread that have returned. -/
def State.callsOf (s : State ι κ σ C L A) (i : ι) : List C :=
  (s.made.filter fun e => e.1 = i).map fun e => e.2.1

/-- A thread's calls are made once each and in its order. -/
def Ordered (programs : ι → List C) (s : State ι κ σ C L A) : Prop :=
  ∀ i, s.callsOf i ++ (s.threads i).left = programs i

variable {programs : ι → List C}

omit [DecidableEq κ] in
/-- It is enough to look at the thread that moved. -/
theorem Ordered.move {u : Thread C L} (h : Ordered programs s)
    (hthreads : t.threads = (s.move i u).threads)
    (hothers : ∀ j, j ≠ i → t.callsOf j = s.callsOf j)
    (hcalls : t.callsOf i ++ u.left = s.callsOf i ++ (s.threads i).left) : Ordered programs t := by
  intro j
  rw [hthreads, move_threads]
  split
  · rename_i hj
    rw [hj, hcalls]
    exact h i
  · rename_i hj
    rw [hothers j hj]
    exact h j

theorem Move.ordered (h : Ordered programs s) (hmove : Move S s i t) : Ordered programs t := by
  cases hmove with
  | stay _ => exact h
  | ask hplace htodo =>
      refine h.move rfl (fun _ _ => rfl) ?_
      simp only [State.callsOf, State.move, Thread.left, hplace, htodo]
  | enter hplace _ =>
      refine h.move rfl (fun _ _ => rfl) ?_
      simp only [State.callsOf, State.move, Thread.left, hplace]
  | go hplace _ _ =>
      refine h.move rfl (fun _ _ => rfl) ?_
      simp only [State.callsOf, State.move, Thread.left, hplace]
  | leave hplace hresult =>
      refine h.move rfl ?_ ?_
      · intro j hj
        simp [State.callsOf, List.filter_append, hj.symm]
      · simp [State.callsOf, List.filter_append, Thread.left, hplace]

/-- No call is lost, and none is made twice. -/
theorem run_ordered {shared : κ → σ} {schedule : List ι}
    (hrun : run (act S) (State.start shared programs) schedule = .ok s) : Ordered programs s :=
  run_invariant (Ordered programs) (fun _ _ _ h hact => (act_cases hact).ordered h)
    (fun _ => by simp [State.start, State.callsOf, Thread.left]) hrun

omit [DecidableEq κ] in
/-- A call that somebody is inside of is one that a program has. -/
theorem Ordered.mem_programs (h : Ordered programs s) {c : C} {l : L}
    (hplace : (s.threads i).place = .inside c l) : c ∈ programs i := by
  rw [← h i]
  simp [Thread.left, hplace]

/-! ## Atomicity -/

/-- Calls made one after the other, with their answers. -/
def transcript {τ : Type v} (step : τ → C → Except ε (τ × A)) (t : τ) :
    List C → Except ε (τ × List A)
  | [] => pure (t, [])
  | c :: cs => do
    let (t, a) ← step t c
    let (t, as) ← transcript step t cs
    pure (t, a :: as)

theorem transcript_concat {τ : Type v} {step : τ → C → Except ε (τ × A)} {t u v : τ} {cs : List C}
    {as : List A} {c : C} {a : A} (hcs : transcript step t cs = .ok (u, as))
    (hc : step u c = .ok (v, a)) : transcript step t (cs ++ [c]) = .ok (v, as ++ [a]) := by
  induction cs generalizing t as with
  | nil =>
      cases hcs
      simp [transcript, hc]
  | cons c₀ cs ih =>
      rcases bind_eq_ok.1 hcs with ⟨⟨t₁, a₀⟩, hc₀, hcs⟩
      rcases bind_eq_ok.1 hcs with ⟨⟨t₂, as₁⟩, hrest, heq⟩
      cases heq
      simp [transcript, hc₀, ih hrest]

/-- A whole call, on the part that it goes to. -/
def onPart (S : Sections ε κ σ C L A) (whole : σ → C → Except ε (σ × A)) (f : κ → σ) (c : C) :
    Except ε ((κ → σ) × A) := do
  let (x, a) ← whole (f (S.part c)) c
  pure (Function.update f (S.part c) x, a)

/-- `remaining` is what a call has still to do: all of it when it begins, nothing
when it is through, and a step is a part of it. -/
structure Whole (S : Sections ε κ σ C L A) (whole : σ → C → Except ε (σ × A))
    (remaining : σ → L → Except ε (σ × A)) : Prop where
  start : ∀ x c, remaining x (S.start c) = whole x c
  step : ∀ x l, S.result l = none → remaining x l = S.step x l >>= fun r => remaining r.1 r.2
  through : ∀ x l a, S.result l = some a → remaining x l = .ok (x, a)

variable {whole : σ → C → Except ε (σ × A)} {remaining : σ → L → Except ε (σ × A)}

/-- The parts that the calls have made which have returned are the parts as they
are, but for those that somebody is inside of; his call will make the part what it
would make of the part as it was. -/
structure Behind (S : Sections ε κ σ C L A) (remaining : σ → L → Except ε (σ × A))
    (whole : σ → C → Except ε (σ × A)) (s : State ι κ σ C L A) (f : κ → σ) : Prop where
  free : ∀ k, (∀ i, ¬ (s.threads i).In S k) → s.shared k = f k
  inside : ∀ i c l, (s.threads i).place = .inside c l →
    remaining (s.shared (S.part c)) l = whole (f (S.part c)) c

/-- A step either makes no whole call or ends one. -/
theorem Move.behind (hwhole : Whole S whole remaining) (hexcludes : Excludes S s) {f : κ → σ}
    (h : Behind S remaining whole s f) (hmove : Move S s i t) :
    (t.made = s.made ∧ Behind S remaining whole t f) ∨
      ∃ c l a x, (s.threads i).place = .inside c l ∧ t.made = s.made ++ [(i, c, a)] ∧
        whole (f (S.part c)) c = .ok (x, a) ∧
        Behind S remaining whole t (Function.update f (S.part c) x) := by
  cases hmove with
  | stay _ => exact Or.inl ⟨rfl, h⟩
  | ask hplace _ =>
      refine Or.inl ⟨rfl, ?_, ?_⟩
      · intro k hk
        refine h.free k fun j hj => hk j ?_
        rw [in_move, if_neg]
        · exact hj
        · rintro rfl
          exact Thread.not_in (by simp [hplace]) k hj
      · intro j c l hj
        rw [move_threads] at hj
        split at hj
        · cases hj
        · exact h.inside j c l hj
  | enter hplace hfree =>
      refine Or.inl ⟨rfl, ?_, ?_⟩
      · intro k hk
        refine h.free k fun j hj => hk j ?_
        rw [in_move, if_neg]
        · exact hj
        · rintro rfl
          exact Thread.not_in (by simp [hplace]) k hj
      · intro j c l hj
        simp only [move_threads] at hj
        split at hj
        · cases hj
          rw [hwhole.start]
          exact congrArg (fun x => whole x _) (h.free _ (hexcludes.nobody hfree))
        · exact h.inside j c l hj
  | go hplace hresult hstep =>
      rename_i c l l' x
      have hi := (Thread.in_of_place (S := S) hplace (S.part c)).2 rfl
      refine Or.inl ⟨rfl, ?_, ?_⟩
      · intro k hk
        have hne : k ≠ S.part c := by
          rintro rfl
          refine hk i ?_
          rw [in_move, if_pos rfl, Thread.in_of_place rfl]
        simp only [Function.update_of_ne hne]
        refine h.free k fun j hj => hk j ?_
        rw [in_move, if_neg]
        · exact hj
        · rintro rfl
          exact hne ((Thread.in_of_place hplace k).1 hj).symm
      · intro j c' l₂ hj
        simp only [move_threads] at hj
        split at hj
        · cases hj
          simp only [Function.update_self]
          rw [← h.inside i c l hplace, hwhole.step _ l hresult, hstep, ok_bind]
        · rename_i hji
          -- he is in another part
          have hne : S.part c' ≠ S.part c := by
            intro heq
            exact hji (hexcludes.alone _ j i ((Thread.in_of_place hj _).2 heq) hi)
          simp only [Function.update_of_ne hne]
          exact h.inside j c' l₂ hj
  | leave hplace hresult =>
      rename_i c l a
      have hi := (Thread.in_of_place (S := S) hplace (S.part c)).2 rfl
      have hdone := h.inside i c l hplace
      rw [hwhole.through _ l a hresult] at hdone
      refine Or.inr ⟨c, l, a, s.shared (S.part c), hplace, rfl, hdone.symm, ?_, ?_⟩
      · intro k hk
        by_cases hkc : k = S.part c
        · rw [hkc, Function.update_self]
          rfl
        · rw [Function.update_of_ne hkc]
          refine h.free k fun j hj => hk j ?_
          rw [in_move, if_neg]
          · exact hj
          · rintro rfl
            exact hkc ((Thread.in_of_place hplace k).1 hj).symm
      · intro j c' l₂ hj
        simp only [move_threads] at hj
        split at hj
        · cases hj
        · rename_i hji
          have hne : S.part c' ≠ S.part c := by
            intro heq
            exact hji (hexcludes.alone _ j i ((Thread.in_of_place hj _).2 heq) hi)
          rw [Function.update_of_ne hne]
          exact h.inside j c' l₂ hj

/-- Whatever the schedule: the calls that have returned, made one after the other
in the order in which they returned, give the same answers; and they leave every
part as it is that nobody is inside of. -/
theorem run_atomic (hwhole : Whole S whole remaining) {shared : κ → σ} {schedule : List ι}
    (hrun : run (act S) (State.start shared programs) schedule = .ok s) :
    ∃ f, transcript (onPart S whole) shared s.calls = .ok (f, s.answers) ∧
      Behind S remaining whole s f := by
  have hinv : Excludes S s ∧ ∃ f, transcript (onPart S whole) shared s.calls = .ok (f, s.answers) ∧
      Behind S remaining whole s f := by
    refine run_invariant (fun s => Excludes S s ∧ ∃ f,
      transcript (onPart S whole) shared s.calls = .ok (f, s.answers) ∧
        Behind S remaining whole s f) ?_ ?_ hrun
    · rintro s i t ⟨hexcludes, f, hmade, hbehind⟩ hact
      have hmove := act_cases hact
      refine ⟨hmove.excludes hexcludes, ?_⟩
      rcases hmove.behind hwhole hexcludes hbehind with
        ⟨hsame, hbehind'⟩ | ⟨c, l, a, x, -, hnew, hc, hbehind'⟩
      · refine ⟨f, ?_, hbehind'⟩
        rw [State.calls, State.answers, hsame]
        exact hmade
      · refine ⟨_, ?_, hbehind'⟩
        rw [State.calls, State.answers, hnew, List.map_append, List.map_append]
        refine transcript_concat hmade ?_
        simp only [onPart, hc, ok_bind, pure_eq_ok]
    · refine ⟨start_excludes shared programs, shared, rfl, fun _ _ => rfl, ?_⟩
      simp [State.start]
  exact hinv.2

/-! ## Every call returns -/

/-- Where the whole calls succeed, the threads never fail. -/
theorem run_ok (hwhole : Whole S whole remaining) {good : σ → Prop} {fine : C → Prop}
    (hgood : ∀ x c, good x → fine c → ∃ y a, whole x c = .ok (y, a) ∧ good y)
    {shared : κ → σ} (hshared : ∀ k, good (shared k)) (programs : ι → List C)
    (hfine : ∀ i, ∀ c ∈ programs i, fine c) (schedule : List ι) :
    ∃ s, run (act S) (State.start shared programs) schedule = .ok s ∧
      ∃ f, (∀ k, good (f k)) ∧ Behind S remaining whole s f := by
  induction schedule using List.reverseRecOn with
  | nil => exact ⟨_, rfl, shared, hshared, fun _ _ => rfl, by simp [State.start]⟩
  | append_singleton schedule i ih =>
      rcases ih with ⟨s, hrun, f, hf, hbehind⟩
      have hordered := run_ordered hrun
      have hok : ∀ j c l, (s.threads j).place = .inside c l →
          ∃ y a, whole (f (S.part c)) c = .ok (y, a) ∧ good y := fun j c l hplace =>
        hgood _ c (hf _) (hfine j c (hordered.mem_programs hplace))
      have hstep : ∃ t, act S s i = .ok t := by
        refine act_ok fun c l hplace hresult => ?_
        -- the step is a part of a call that succeeds
        rcases hok i c l hplace with ⟨y, a, hwhole', -⟩
        rw [← hbehind.inside i c l hplace, hwhole.step _ l hresult] at hwhole'
        rcases bind_eq_ok.1 hwhole' with ⟨r, hr, -⟩
        exact ⟨r, hr⟩
      rcases hstep with ⟨t, ht⟩
      refine ⟨t, run_concat_ok.2 ⟨s, hrun, ht⟩, ?_⟩
      rcases (act_cases ht).behind hwhole (run_excludes hrun) hbehind with
        ⟨-, hbehind'⟩ | ⟨c, l, a, x, hplace, -, hc, hbehind'⟩
      · exact ⟨f, hf, hbehind'⟩
      · refine ⟨_, ?_, hbehind'⟩
        rcases hok i c l hplace with ⟨y, b, hy, hgoody⟩
        rw [hc] at hy
        cases hy
        intro k
        rw [Function.update_apply]
        split
        · exact hgoody
        · exact hf k

/-- Each step of a call takes it nearer to its end. -/
def Ranked (S : Sections ε κ σ C L A) (rank : L → ℕ) : Prop :=
  ∀ x l x' l', S.result l = none → S.step x l = .ok (x', l') → rank l' < rank l

/-- The moves that a thread can still make. -/
def Thread.work (S : Sections ε κ σ C L A) (rank : L → ℕ) (t : Thread C L) : ℕ :=
  (t.todo.map fun c => rank (S.start c) + 3).sum +
    match t.place with
    | .idle => 0
    | .waiting c => rank (S.start c) + 2
    | .inside _ l => rank l + 1

def State.work [Fintype ι] (S : Sections ε κ σ C L A) (rank : L → ℕ)
    (s : State ι κ σ C L A) : ℕ :=
  ∑ i, (s.threads i).work S rank

variable {rank : L → ℕ}

/-- A move uses up work, unless the thread stays where it is. -/
theorem Move.work_lt [Fintype ι] (hrank : Ranked S rank) (hmove : Move S s i t) :
    (Stays S s i ∧ t = s) ∨ t.work S rank < s.work S rank := by
  cases hmove with
  | stay hstays => exact Or.inl ⟨hstays, rfl⟩
  | ask hplace htodo =>
      refine Or.inr (sum_update_lt (Thread.work S rank) s.threads ?_)
      simp only [Thread.work, hplace, htodo, List.map_cons, List.sum_cons]
      omega
  | enter hplace _ =>
      refine Or.inr (sum_update_lt (Thread.work S rank) s.threads ?_)
      simp only [Thread.work, hplace]
      omega
  | go hplace hresult hstep =>
      refine Or.inr (sum_update_lt (Thread.work S rank) s.threads ?_)
      have hlt := hrank _ _ _ _ hresult hstep
      simp only [Thread.work, hplace]
      omega
  | leave hplace _ =>
      refine Or.inr (sum_update_lt (Thread.work S rank) s.threads ?_)
      simp only [Thread.work, hplace]
      omega

omit [DecidableEq ι] [DecidableEq κ] in
/-- There is no deadlock: who is inside can go on, and when nobody is, anyone can
go in. -/
theorem Excludes.exists_moves (h : Excludes S s) (hnot : ¬ s.Finished) : ∃ i, ¬ Stays S s i := by
  by_cases hinside : ∃ i k, (s.threads i).In S k
  · rcases hinside with ⟨i, k, c, l, hplace, -⟩
    refine ⟨i, ?_⟩
    rintro (⟨hidle, -⟩ | ⟨c', hwaiting, -⟩)
    · rw [hplace] at hidle
      cases hidle
    · rw [hplace] at hwaiting
      cases hwaiting
  · rcases not_forall.1 hnot with ⟨i, hi⟩
    refine ⟨i, ?_⟩
    rintro (hthrough | ⟨c, -, hheld⟩)
    · exact hi hthrough
    · rcases (h.held _).1 hheld with ⟨j, hj⟩
      exact hinside ⟨j, _, hj⟩

theorem Move.finished (hfinished : s.Finished) (hmove : Move S s i t) : t = s := by
  have hi := hfinished i
  cases hmove with
  | stay _ => rfl
  | ask _ htodo =>
      rw [hi.2] at htodo
      cases htodo
  | enter hplace _ =>
      rw [hi.1] at hplace
      cases hplace
  | go hplace _ _ =>
      rw [hi.1] at hplace
      cases hplace
  | leave hplace _ =>
      rw [hi.1] at hplace
      cases hplace

theorem act_progress [Fintype ι] (hrank : Ranked S rank) :
    Progress (act S : State ι κ σ C L A → ι → Except ε (State ι κ σ C L A)) (Excludes S)
      State.Finished (Stays S) (State.work S rank) where
  keeps _ _ _ h hact := (act_cases hact).excludes h
  moves _ _ _ hact := (act_cases hact).work_lt hrank
  live _ h hnot := h.exists_moves hnot
  rests _ _ _ hfinished hact := by rwa [(act_cases hact).finished hfinished]

/-- Every thread gets through, in whatever order they take their turns. -/
theorem run_finishes [Fintype ι] (hrank : Ranked S rank) {shared : κ → σ}
    {rounds : List (List ι)} (hall : ∀ round ∈ rounds, ∀ i, i ∈ round)
    (hwork : ∑ i, ((programs i).map fun c => rank (S.start c) + 3).sum < rounds.length)
    (hrun : run (act S) (State.start shared programs) rounds.flatten = .ok t) : t.Finished := by
  refine (act_progress hrank).rounds_finish (start_excludes shared programs) hall ?_ hrun
  simpa [State.work, Thread.work, State.start] using hwork

end Striped
