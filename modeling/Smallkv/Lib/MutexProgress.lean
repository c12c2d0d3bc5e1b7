import Smallkv.Lib.Rounds
import Smallkv.Lib.SharedMutex

/-!
# MutexProgress — every call has its turn

What `SharedMutex` promises of the calls themselves: none is lost or made twice
and those of one thread are let in in its order (`run_ordered`), and where the
steps of a call are counted down by a rank, every thread gets through, provided
that each of them moves now and then (`run_finishes`). There is no deadlock:
whoever is inside can go on, and when nobody is, anyone can go in.
-/

namespace SharedMutex

open Fallible

variable {ε : Type u} {ι σ C L : Type v}

/-! ## The order of the calls -/

/-- The calls that were let in, in their order. -/
def Thread.begun (t : Thread C L) : List C :=
  t.ended.reverse.map Prod.fst ++
    match t.place with
    | .inside c _ _ => [c]
    | _ => []

/-- The calls that were not. -/
def Thread.pending (t : Thread C L) : List C :=
  match t.place with
  | .waiting c => c :: t.todo
  | _ => t.todo

variable [DecidableEq ι]

/-- The exclusive calls of one thread, as they were let in. -/
def State.callsOf (s : State ι σ C L) (i : ι) : List C :=
  (s.order.filter fun e => e.1 = i).map Prod.snd

/-- A thread's calls are made once each and in its order. -/
def Ordered (P : Protocol ε σ C L) (programs : ι → List C) (s : State ι σ C L) : Prop :=
  ∀ i, (s.threads i).begun ++ (s.threads i).pending = programs i ∧
    s.callsOf i = (s.threads i).begun.filter P.exclusive

variable {P : Protocol ε σ C L} {s t : State ι σ C L} {i : ι} {programs : ι → List C}

/-- One more exclusive call. -/
theorem callsOf_concat (s : State ι σ C L) (i j : ι) (c : C) :
    ((s.order ++ [(i, c)]).filter fun e => e.1 = j).map Prod.snd =
      s.callsOf j ++ if i = j then [c] else [] := by
  rw [List.filter_append, List.map_append, State.callsOf]
  by_cases hij : i = j
  · simp [hij]
  · simp [hij]

/-- It is enough to look at the thread that moved. -/
theorem Ordered.move {u : Thread C L} (h : Ordered P programs s)
    (hthreads : t.threads = (s.move i u).threads)
    (hothers : ∀ j, j ≠ i → t.callsOf j = s.callsOf j)
    (hbegun : u.begun ++ u.pending = (s.threads i).begun ++ (s.threads i).pending)
    (hcalls : t.callsOf i = u.begun.filter P.exclusive) : Ordered P programs t := by
  intro j
  rw [hthreads, move_threads]
  split
  · rename_i hj
    rw [hj, hbegun]
    exact ⟨(h i).1, hcalls⟩
  · rename_i hj
    rw [hothers j hj]
    exact h j

theorem Move.ordered (h : Ordered P programs s) (hmove : Move P s i t) :
    Ordered P programs t := by
  have hi := (h i).2
  cases hmove with
  | stay _ => exact h
  | ask hplace htodo _ =>
      refine h.move rfl (fun _ _ => rfl) ?_ (hi.trans ?_)
      · simp only [Thread.begun, Thread.pending, hplace, htodo, List.append_nil]
      · simp only [Thread.begun, hplace]
  | enter hplace hmutex =>
      rename_i c m
      refine h.move rfl ?_ ?_ ?_
      · intro j hj
        simp only [State.callsOf]
        split
        · rw [callsOf_concat, if_neg hj.symm, List.append_nil, State.callsOf]
        · rfl
      · simp only [Thread.begun, Thread.pending, hplace, List.append_nil, List.append_assoc,
          List.singleton_append]
      · simp only [Thread.begun, hplace, List.append_nil] at hi
        simp only [State.callsOf, Thread.begun, List.filter_append]
        rw [← hi]
        split
        · rename_i hmode
          rw [callsOf_concat, if_pos rfl, List.filter_singleton, hmode]
          rfl
        · rename_i hmode
          simp [hmode, State.callsOf]
  | go hplace _ _ =>
      refine h.move rfl (fun _ _ => rfl) ?_ (hi.trans ?_)
      · simp only [Thread.begun, Thread.pending, hplace]
      · simp only [Thread.begun, hplace]
  | leave hplace _ =>
      refine h.move rfl (fun _ _ => rfl) ?_ (hi.trans ?_)
      · simp only [Thread.begun, Thread.pending, hplace, List.reverse_cons, List.map_append,
          List.map_cons, List.map_nil, List.append_nil]
      · simp only [Thread.begun, hplace, List.reverse_cons, List.map_append, List.map_cons,
          List.map_nil, List.append_nil]

/-- No call is lost, none is made twice, and each thread's calls are let in in the
order of its program. -/
theorem run_ordered {shared : σ} {schedule : List ι}
    (hrun : run (act P) (State.start shared programs) schedule = .ok s) : Ordered P programs s := by
  refine run_cases (Ordered P programs) (fun _ _ _ h hmove => hmove.ordered h) ?_ hrun
  intro j
  simp [State.start, Thread.begun, Thread.pending, State.callsOf]

/-! ## Termination -/

/-- Each step of a call takes it nearer to its end. -/
def Ranked (P : Protocol ε σ C L) (rank : L → ℕ) : Prop :=
  ∀ s l s' l', P.isOver l = false → P.step s l = .ok (s', l') → rank l' < rank l

/-- The moves that a thread can still make. -/
def Thread.work (P : Protocol ε σ C L) (rank : L → ℕ) (t : Thread C L) : ℕ :=
  (t.todo.map fun c => rank (P.start c) + 3).sum +
    match t.place with
    | .idle => 0
    | .waiting c => rank (P.start c) + 2
    | .inside _ _ l => rank l + 1

def State.work [Fintype ι] (P : Protocol ε σ C L) (rank : L → ℕ) (s : State ι σ C L) : ℕ :=
  ∑ i, (s.threads i).work P rank

variable {rank : L → ℕ}

/-- A move uses up work, unless the thread stays where it is. -/
theorem Move.work_lt (hrank : Ranked P rank) (hmove : Move P s i t) :
    (Stays P s i ∧ t = s) ∨ ∃ u : Thread C L, t.threads = (s.move i u).threads ∧
      u.work P rank < (s.threads i).work P rank := by
  cases hmove with
  | stay hstays => exact Or.inl ⟨hstays, rfl⟩
  | ask hplace htodo _ =>
      refine Or.inr ⟨_, rfl, ?_⟩
      simp only [Thread.work, hplace, htodo, List.map_cons, List.sum_cons]
      omega
  | enter hplace _ =>
      refine Or.inr ⟨_, rfl, ?_⟩
      simp only [Thread.work, hplace]
      omega
  | go hplace hover hstep =>
      refine Or.inr ⟨_, rfl, ?_⟩
      have hlt := hrank _ _ _ _ hover hstep
      simp only [Thread.work, hplace]
      omega
  | leave hplace _ =>
      refine Or.inr ⟨_, rfl, ?_⟩
      simp only [Thread.work, hplace]
      omega

omit [DecidableEq ι] in
/-- There is no deadlock: as long as not all are through, there is one that can move. -/
theorem Excludes.exists_moves (h : Excludes P s) (hnot : ¬ s.Finished) : ∃ i, ¬ Stays P s i := by
  by_cases hinside : ∃ i mode, (s.threads i).Inside P mode
  · rcases hinside with ⟨i, mode, c, before, l, hplace, -⟩
    refine ⟨i, ?_⟩
    rintro (⟨hidle, -⟩ | ⟨c', hwaiting, -⟩)
    · rw [hplace] at hidle
      cases hidle
    · rw [hplace] at hwaiting
      cases hwaiting
  · -- nobody is inside, so the mutex is free
    have hnobody : ∀ i mode, ¬ (s.threads i).Inside P mode :=
      fun i mode hi => hinside ⟨i, mode, hi⟩
    have hwriter : s.mutex.writer = false := by
      rw [← Bool.not_eq_true, h.writer]
      rintro ⟨i, hi⟩
      exact hnobody i true hi
    have hreaders : s.mutex.readers = 0 := by
      rcases h.readers with ⟨R, hR, hcard⟩
      rw [hcard, Finset.card_eq_zero, Finset.eq_empty_iff_forall_notMem]
      exact fun i hi => hnobody i false ((hR i).1 hi)
    rcases not_forall.1 hnot with ⟨i, hi⟩
    refine ⟨i, ?_⟩
    rintro (hthrough | ⟨c, -, hblocked⟩)
    · exact hi hthrough
    · cases hmode : P.exclusive c with
      | true => simp [Mutex.acquire, hmode, hwriter, hreaders] at hblocked
      | false => simp [Mutex.acquire, hmode, hwriter] at hblocked

/-- Who is through stays there. -/
theorem Move.finished (hfinished : s.Finished) (hmove : Move P s i t) : t = s := by
  have hi := hfinished i
  cases hmove with
  | stay _ => rfl
  | ask _ htodo _ =>
      rw [hi.2] at htodo
      cases htodo
  | enter hplace _ =>
      rw [hi.1] at hplace
      cases hplace
  | go hplace _ _ =>
      rw [hi.1] at hplace
      cases hplace
  | leave hplace _ =>
      rw [hi.1] at hplace
      cases hplace

variable [Fintype ι]

theorem Move.work_le (hrank : Ranked P rank) (hmove : Move P s i t) :
    (Stays P s i ∧ t = s) ∨ t.work P rank < s.work P rank := by
  rcases hmove.work_lt hrank with hstays | ⟨u, hthreads, hlt⟩
  · exact Or.inl hstays
  · refine Or.inr ?_
    unfold State.work
    rw [hthreads]
    exact sum_update_lt (Thread.work P rank) s.threads hlt

theorem act_progress (hrank : Ranked P rank) :
    Progress (act P : State ι σ C L → ι → Except ε (State ι σ C L)) (Excludes P) State.Finished
      (Stays P) (State.work P rank) where
  keeps _ _ _ h hact := (act_cases hact).excludes h
  moves _ _ _ hact := (act_cases hact).work_le hrank
  live _ h hnot := h.exists_moves hnot
  rests _ _ _ hfinished hact := by rwa [(act_cases hact).finished hfinished]

/-- Every thread gets through, in whatever order they take their turns. -/
theorem run_finishes (hrank : Ranked P rank) {shared : σ} {programs : ι → List C}
    {rounds : List (List ι)} (hall : ∀ round ∈ rounds, ∀ i, i ∈ round)
    (hwork : ∑ i, ((programs i).map fun c => rank (P.start c) + 3).sum < rounds.length)
    (hrun : run (act P) (State.start shared programs) rounds.flatten = .ok t) : t.Finished := by
  refine (act_progress hrank).rounds_finish (start_excludes shared programs) hall ?_ hrun
  simpa [State.work, Thread.work, State.start] using hwork

end SharedMutex
