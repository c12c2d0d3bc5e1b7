import Smallkv.Lib.Fallible

/-!
# Rounds — enough turns for everybody see everybody through

Threads that move one at a time: a move either leaves all as it is, because the
thread is through or has to wait, or uses up some of the work that is left. If
there is always one that can move until all are through, then so many rounds as
there is work see all of them through, whatever the order within a round.
-/

namespace Fallible

variable {ε : Type u} {σ : Type v} {ι : Type w} {act : σ → ι → Except ε σ}

/-- `inv` is kept, and in its states nobody is stuck before all have `finished`. -/
structure Progress (act : σ → ι → Except ε σ) (inv finished : σ → Prop) (stays : σ → ι → Prop)
    (work : σ → ℕ) : Prop where
  keeps : ∀ s i t, inv s → act s i = .ok t → inv t
  moves : ∀ s i t, act s i = .ok t → (stays s i ∧ t = s) ∨ work t < work s
  live : ∀ s, inv s → ¬ finished s → ∃ i, ¬ stays s i
  rests : ∀ s i t, finished s → act s i = .ok t → finished t

namespace Progress

variable {inv finished : σ → Prop} {stays : σ → ι → Prop} {work : σ → ℕ} {s t : σ}

/-- Either nobody has moved or some work is done. -/
theorem run_moves (h : Progress act inv finished stays work) {schedule : List ι}
    (hrun : run act s schedule = .ok t) : t = s ∨ work t < work s := by
  refine run_invariant (fun u => u = s ∨ work u < work s) ?_ (Or.inl rfl) hrun
  rintro u i v hu hact
  rcases h.moves u i v hact with ⟨-, rfl⟩ | hlt
  · exact hu
  · rcases hu with rfl | hlt'
    · exact Or.inr hlt
    · exact Or.inr (hlt.trans hlt')

theorem run_rests (h : Progress act inv finished stays work) (hfinished : finished s)
    {schedule : List ι} (hrun : run act s schedule = .ok t) : finished t :=
  run_invariant finished h.rests hfinished hrun

/-- In a round that every thread takes part in, work is done. -/
theorem round_moves (h : Progress act inv finished stays work) (hs : inv s) {round : List ι}
    (hall : ∀ i, i ∈ round) (hrun : run act s round = .ok t) : finished t ∨ work t < work s := by
  by_cases hfinished : finished s
  · exact Or.inl (h.run_rests hfinished hrun)
  · right
    rcases h.live s hs hfinished with ⟨i, hi⟩
    rcases List.append_of_mem (hall i) with ⟨before, after, rfl⟩
    rcases run_append_ok.1 hrun with ⟨u, hbefore, hrun⟩
    rcases bind_eq_ok.1 hrun with ⟨v, hact, hafter⟩
    have hlt : work v < work s := by
      rcases h.run_moves hbefore with rfl | hlt
      · -- nobody before it has moved
        rcases h.moves _ i v hact with ⟨hstays, -⟩ | hlt
        · exact absurd hstays hi
        · exact hlt
      · rcases h.moves u i v hact with ⟨-, rfl⟩ | hlt'
        · exact hlt
        · exact hlt'.trans hlt
    rcases h.run_moves hafter with rfl | hlt'
    · exact hlt
    · exact hlt'.trans hlt

/-- As many rounds as there is work see every thread through. -/
theorem rounds_finish (h : Progress act inv finished stays work) (hs : inv s)
    {rounds : List (List ι)} (hall : ∀ round ∈ rounds, ∀ i, i ∈ round)
    (hwork : work s < rounds.length) (hrun : run act s rounds.flatten = .ok t) : finished t := by
  induction rounds generalizing s with
  | nil => simp at hwork
  | cons round rounds ih =>
      rw [List.flatten_cons] at hrun
      rcases run_append_ok.1 hrun with ⟨u, hround, hrun⟩
      have hu : inv u := run_invariant inv h.keeps hs hround
      rcases h.round_moves hs (hall round List.mem_cons_self) hround with hfinished | hlt
      · exact h.run_rests hfinished hrun
      · rw [List.length_cons] at hwork
        exact ih hu (fun r hr => hall r (List.mem_cons_of_mem _ hr)) (by omega) hrun

end Progress

/-- One summand is less, and the others stay. -/
theorem sum_update_lt {ι : Type w} {α : Type v} [Fintype ι] [DecidableEq ι] (work : α → ℕ) (t : ι → α)
    {i : ι} {a : α} (h : work a < work (t i)) :
    ∑ j, work (Function.update t i a j) < ∑ j, work (t j) := by
  refine Finset.sum_lt_sum ?_ ⟨i, Finset.mem_univ i, ?_⟩
  · intro j _
    rw [Function.update_apply]
    split
    · rename_i hj
      rw [hj]
      exact h.le
    · exact le_refl _
  · rwa [Function.update_self]

end Fallible
