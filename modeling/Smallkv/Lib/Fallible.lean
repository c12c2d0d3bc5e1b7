import Mathlib

/-!
# Fallible — runs of a machine whose steps can fail

A step function `step : σ → ι → Except ε σ` either returns the next state or
fails; a run folds it over a list of inputs and stops at the first failure.
The rules below are the ones a safety proof needs: take a successful
computation apart (`bind_eq_ok`), split a run at any point (`run_append_ok`),
and lift a fact from one step to a whole run (`run_invariant`,
`run_history_invariant`).
-/

namespace Fallible

variable {ε : Type u} {α β σ : Type v} {ι : Type w}

/-! ## Computations -/

@[simp] theorem ok_bind (a : α) (f : α → Except ε β) : (Except.ok a >>= f) = f a := rfl

@[simp] theorem error_bind (e : ε) (f : α → Except ε β) :
    (Except.error e >>= f) = Except.error e := rfl

@[simp] theorem pure_eq_ok (a : α) : (pure a : Except ε α) = Except.ok a := rfl

/-- A sequence succeeds exactly when both of its parts do. -/
theorem bind_eq_ok {x : Except ε α} {f : α → Except ε β} {b : β} :
    (x >>= f) = .ok b ↔ ∃ a, x = .ok a ∧ f a = .ok b := by
  cases x with
  | error e => simp
  | ok a => simp

/-- A computation that was evaluated and whose result passed a test. -/
theorem exists_ok_of_any {x : Except ε α} {p : α → Bool} (h : x.toOption.any p = true) :
    ∃ a, x = .ok a ∧ p a = true := by
  cases x with
  | error e => cases h
  | ok a => exact ⟨a, rfl, h⟩

/-- Read a cell that may be absent; an absent one is the failure `e`. -/
def orFail (e : ε) : Option α → Except ε α
  | none => .error e
  | some a => .ok a

@[simp] theorem orFail_some (e : ε) (a : α) : orFail e (some a) = .ok a := rfl

@[simp] theorem orFail_none (e : ε) : orFail e (none : Option α) = .error e := rfl

theorem orFail_eq_ok {e : ε} {o : Option α} {a : α} : orFail e o = .ok a ↔ o = some a := by
  cases o with
  | none => simp
  | some b => simp

/-- Go on only when the check holds. -/
def require (e : ε) (p : Prop) [Decidable p] : Except ε Unit :=
  if p then .ok () else .error e

@[simp] theorem require_eq_ok {e : ε} {p : Prop} [Decidable p] {u : Unit} :
    require e p = .ok u ↔ p := by
  unfold require
  split <;> simp_all

theorem require_of {e : ε} {p : Prop} [Decidable p] (h : p) : require e p = .ok () := by
  simp [require, h]

/-! ## Runs -/

/-- Fold the step over the inputs, stopping at the first failure. -/
def run (step : σ → ι → Except ε σ) (s : σ) (as : List ι) : Except ε σ :=
  as.foldlM step s

variable {step : σ → ι → Except ε σ}

@[simp] theorem run_nil (s : σ) : run step s [] = .ok s := rfl

@[simp] theorem run_cons (s : σ) (a : ι) (as : List ι) :
    run step s (a :: as) = step s a >>= fun t => run step t as := rfl

theorem run_append (s : σ) (as bs : List ι) :
    run step s (as ++ bs) = run step s as >>= fun t => run step t bs := by
  simp [run, List.foldlM_append]

/-- A run over `as ++ bs` passes through the state reached after `as`. -/
theorem run_append_ok {s u : σ} {as bs : List ι} :
    run step s (as ++ bs) = .ok u ↔
      ∃ t, run step s as = .ok t ∧ run step t bs = .ok u := by
  rw [run_append, bind_eq_ok]

theorem run_concat_ok {s u : σ} {as : List ι} {a : ι} :
    run step s (as ++ [a]) = .ok u ↔ ∃ t, run step s as = .ok t ∧ step t a = .ok u := by
  rw [run_append_ok]
  simp [bind_eq_ok]

/-- An invariant of the step is an invariant of every run. -/
theorem run_invariant (inv : σ → Prop)
    (hstep : ∀ s a t, inv s → step s a = .ok t → inv t)
    {s u : σ} {as : List ι} (hs : inv s) (hrun : run step s as = .ok u) : inv u := by
  induction as generalizing s with
  | nil =>
      cases hrun
      exact hs
  | cons a as ih =>
      rcases bind_eq_ok.1 hrun with ⟨t, ht, htu⟩
      exact ih (hstep s a t hs ht) htu

/-- The same for a relation between the inputs consumed so far and the state: it
holds before the first input, and each step of the run extends the history by one. -/
theorem run_prefix_invariant (inv : List ι → σ → Prop) {s₀ : σ} {all : List ι}
    (hinit : inv [] s₀)
    (hstep : ∀ as s a t, as ++ [a] <+: all → inv as s → step s a = .ok t → inv (as ++ [a]) t)
    {u : σ} (hrun : run step s₀ all = .ok u) : inv all u := by
  induction all using List.reverseRecOn generalizing u with
  | nil =>
      cases hrun
      exact hinit
  | append_singleton as a ih =>
      rcases run_concat_ok.1 hrun with ⟨t, ht, htu⟩
      have has := ih (fun bs s b t hpre => hstep bs s b t (hpre.trans (List.prefix_append _ _))) ht
      exact hstep as t a u (List.prefix_refl _) has htu

/-- Where the steps of all runs keep it, which inputs follow does not matter. -/
theorem run_history_invariant (inv : List ι → σ → Prop) {s₀ : σ}
    (hinit : inv [] s₀)
    (hstep : ∀ as s a t, inv as s → step s a = .ok t → inv (as ++ [a]) t)
    {u : σ} {as : List ι} (hrun : run step s₀ as = .ok u) : inv as u :=
  run_prefix_invariant inv hinit (fun bs s a t _ => hstep bs s a t) hrun

/-- When a step can be made is known from the inputs so far: then a run goes through
exactly if each of its steps can be made. -/
theorem run_ok_iff (inv : List ι → σ → Prop) (guard : List ι → ι → Prop) {s₀ : σ} {all : List ι}
    (hinit : inv [] s₀)
    (hstep : ∀ as s a t, as ++ [a] <+: all → inv as s → step s a = .ok t → inv (as ++ [a]) t)
    (hguard : ∀ as s a, as ++ [a] <+: all → inv as s → ((∃ t, step s a = .ok t) ↔ guard as a)) :
    (∃ u, run step s₀ all = .ok u) ↔ ∀ as a, as ++ [a] <+: all → guard as a := by
  induction all using List.reverseRecOn with
  | nil =>
      refine iff_of_true ⟨s₀, rfl⟩ ?_
      intro as a hpre
      have hlen := hpre.length_le
      simp at hlen
  | append_singleton all a ih =>
      have hstep' : ∀ as s b t, as ++ [b] <+: all → inv as s → step s b = .ok t →
          inv (as ++ [b]) t :=
        fun as s b t hpre => hstep as s b t (hpre.trans (List.prefix_append _ _))
      have hall := ih hstep' fun as s b hpre => hguard as s b (hpre.trans (List.prefix_append _ _))
      constructor
      · rintro ⟨u, hrun⟩ as b hpre
        rcases run_concat_ok.1 hrun with ⟨s, hs, hu⟩
        rcases List.prefix_concat_iff.1 hpre with heq | hpre
        · rcases List.append_inj' heq rfl with ⟨rfl, hb⟩
          obtain rfl : b = a := by simpa using hb
          have hinv := run_prefix_invariant inv hinit hstep' hs
          exact (hguard as s b (List.prefix_refl _) hinv).1 ⟨u, hu⟩
        · exact hall.1 ⟨s, hs⟩ as b hpre
      · intro h
        rcases hall.2 fun as b hpre => h as b (hpre.trans (List.prefix_append _ _)) with ⟨s, hs⟩
        have hinv := run_prefix_invariant inv hinit hstep' hs
        rcases (hguard all s a (List.prefix_refl _) hinv).2 (h all a (List.prefix_refl _)) with
          ⟨u, hu⟩
        exact ⟨u, run_concat_ok.2 ⟨s, hs, hu⟩⟩

/-- A run whose steps all meet a condition on the state they start from. -/
inductive GuardedRun (step : σ → ι → Except ε σ) (guard : σ → ι → Prop) (s₀ : σ) :
    List ι → σ → Prop
  | nil : GuardedRun step guard s₀ [] s₀
  | snoc {as : List ι} {s t : σ} {a : ι} (hrun : GuardedRun step guard s₀ as s)
      (hguard : guard s a) (hstep : step s a = .ok t) : GuardedRun step guard s₀ (as ++ [a]) t

theorem GuardedRun.single {guard : σ → ι → Prop} {s₀ t : σ} {a : ι} (hguard : guard s₀ a)
    (hstep : step s₀ a = .ok t) : GuardedRun step guard s₀ [a] t :=
  .snoc .nil hguard hstep

theorem GuardedRun.run_eq {guard : σ → ι → Prop} {s₀ u : σ} {as : List ι}
    (h : GuardedRun step guard s₀ as u) : run step s₀ as = .ok u := by
  induction h with
  | nil => rfl
  | snoc _ _ hstep ih => exact run_concat_ok.2 ⟨_, ih, hstep⟩

theorem GuardedRun.concat {guard : σ → ι → Prop} {s₀ u : σ} {as : List ι} {a : ι}
    (h : GuardedRun step guard s₀ (as ++ [a]) u) :
    ∃ s, GuardedRun step guard s₀ as s ∧ guard s a ∧ step s a = .ok u := by
  generalize hbs : as ++ [a] = bs at h
  cases h with
  | nil => simp at hbs
  | snoc hrun hguard hstep =>
      rcases List.append_inj' hbs rfl with ⟨rfl, ha⟩
      cases ha
      exact ⟨_, hrun, hguard, hstep⟩

/-- A relation between history and state has to be kept by guarded steps only. -/
theorem GuardedRun.invariant {guard : σ → ι → Prop} (inv : List ι → σ → Prop) {s₀ : σ}
    (hinit : inv [] s₀)
    (hstep : ∀ as s a t, inv as s → guard s a → step s a = .ok t → inv (as ++ [a]) t)
    {u : σ} {as : List ι} (h : GuardedRun step guard s₀ as u) : inv as u := by
  induction h with
  | nil => exact hinit
  | snoc _ hguard hrun ih => exact hstep _ _ _ _ ih hguard hrun

/-- A property holds after every part of a run. -/
def Always (step : σ → ι → Except ε σ) (P : List ι → σ → Prop) (s₀ : σ) (as : List ι) : Prop :=
  ∀ bs, bs <+: as → ∀ s, run step s₀ bs = .ok s → P bs s

theorem always_nil {P : List ι → σ → Prop} {s₀ : σ} (h : P [] s₀) : Always step P s₀ [] := by
  intro bs hpre s hrun
  obtain rfl : bs = [] := List.prefix_nil.1 hpre
  cases hrun
  exact h

theorem always_concat_iff {P : List ι → σ → Prop} {s₀ u : σ} {as : List ι} {a : ι}
    (hrun : run step s₀ (as ++ [a]) = .ok u) :
    Always step P s₀ (as ++ [a]) ↔ Always step P s₀ as ∧ P (as ++ [a]) u := by
  constructor
  · intro h
    refine ⟨?_, h _ (List.prefix_refl _) u hrun⟩
    intro bs hpre
    exact h bs (hpre.trans (List.prefix_append as [a]))
  · rintro ⟨has, hu⟩ bs hpre s hs
    rcases List.prefix_concat_iff.1 hpre with rfl | hpre
    · obtain rfl : u = s := Except.ok.inj (hrun.symm.trans hs)
      exact hu
    · exact has bs hpre s hs

/-- Where a step keeps a property exactly if it meets a condition, the property
holds all through a run exactly if every step meets the condition. -/
theorem always_iff_guardedRun {P : List ι → σ → Prop} {guard : σ → ι → Prop} {s₀ u : σ}
    {all : List ι} (hinit : P [] s₀)
    (hstep : ∀ as s a t, as ++ [a] <+: all → run step s₀ as = .ok s → P as s →
      step s a = .ok t → (P (as ++ [a]) t ↔ guard s a))
    (hrun : run step s₀ all = .ok u) :
    Always step P s₀ all ↔ GuardedRun step guard s₀ all u := by
  induction all using List.reverseRecOn generalizing u with
  | nil =>
      cases hrun
      exact ⟨fun _ => .nil, fun _ => always_nil hinit⟩
  | append_singleton as a ih =>
      rcases run_concat_ok.1 hrun with ⟨s, hs, hsu⟩
      have has := ih (fun bs r b t hpre =>
        hstep bs r b t (hpre.trans (List.prefix_append as [a]))) hs
      rw [always_concat_iff hrun]
      constructor
      · rintro ⟨halways, hu⟩
        have hP := halways as (List.prefix_refl as) s hs
        exact .snoc (has.1 halways) ((hstep as s a u (List.prefix_refl _) hs hP hsu).1 hu) hsu
      · intro hguarded
        rcases hguarded.concat with ⟨s', hguarded', hguard, hstep'⟩
        obtain rfl : s = s' := Except.ok.inj (hs.symm.trans hguarded'.run_eq)
        have halways := has.2 hguarded'
        have hP := halways as (List.prefix_refl as) s hs
        exact ⟨halways, (hstep as s a u (List.prefix_refl _) hs hP hsu).2 hguard⟩

/-- In a run that succeeds every part of it does. -/
theorem run_prefix_ok {s₀ u : σ} {as bs : List ι} (hpre : as <+: bs)
    (hrun : run step s₀ bs = .ok u) : ∃ t, run step s₀ as = .ok t := by
  rcases hpre with ⟨cs, rfl⟩
  rcases run_append_ok.1 hrun with ⟨t, ht, -⟩
  exact ⟨t, ht⟩

/-- Where an invariant gives a property, and a step from it succeeds and keeps it under
a condition without which the property is lost: a run goes through with the property
all along exactly if every step meets the condition. -/
theorem ok_always_iff (inv : List ι → σ → Prop) {P : List ι → σ → Prop} {guard : σ → ι → Prop}
    {s₀ : σ} {all : List ι} (hinit : inv [] s₀) (hprop : ∀ as s, inv as s → P as s)
    (hkeep : ∀ as s a, as ++ [a] <+: all → inv as s → guard s a →
      ∃ t, step s a = .ok t ∧ inv (as ++ [a]) t)
    (hlost : ∀ as s a t, as ++ [a] <+: all → inv as s → step s a = .ok t → P (as ++ [a]) t →
      guard s a) :
    ((∃ u, run step s₀ all = .ok u) ∧ Always step P s₀ all) ↔
      ∀ as a s, as ++ [a] <+: all → run step s₀ as = .ok s → guard s a := by
  have hguarded : ∀ bs, bs <+: all →
      (∀ as a s, as ++ [a] <+: bs → run step s₀ as = .ok s → guard s a) →
        ∃ s, run step s₀ bs = .ok s ∧ inv bs s := by
    intro bs
    induction bs using List.reverseRecOn with
    | nil => exact fun _ _ => ⟨s₀, rfl, hinit⟩
    | append_singleton bs b ih =>
        intro hpre hall
        have hbefore := List.prefix_append bs [b]
        rcases ih (hbefore.trans hpre) fun as a s has => hall as a s (has.trans hbefore) with
          ⟨s, hs, hinv⟩
        rcases hkeep bs s b hpre hinv (hall bs b s (List.prefix_refl _) hs) with ⟨t, ht, hinv'⟩
        exact ⟨t, run_concat_ok.2 ⟨s, hs, ht⟩, hinv'⟩
  constructor
  · rintro ⟨⟨u, hu⟩, halways⟩
    -- every part of the run has the property, so it has the invariant
    have hinv : ∀ bs, bs <+: all → ∀ s, run step s₀ bs = .ok s → inv bs s := by
      intro bs
      induction bs using List.reverseRecOn with
      | nil =>
          intro _ s hs
          cases hs
          exact hinit
      | append_singleton bs b ih =>
          intro hpre t ht
          rcases run_concat_ok.1 ht with ⟨s, hs, hst⟩
          have hinv := ih ((List.prefix_append bs [b]).trans hpre) s hs
          have hguard := hlost bs s b t hpre hinv hst (halways _ hpre t ht)
          rcases hkeep bs s b hpre hinv hguard with ⟨t', ht', hinv'⟩
          obtain rfl : t = t' := Except.ok.inj (hst.symm.trans ht')
          exact hinv'
    intro as a s hpre hs
    rcases run_prefix_ok hpre hu with ⟨t, ht⟩
    rcases run_concat_ok.1 ht with ⟨s', hs', hst⟩
    obtain rfl : s = s' := Except.ok.inj (hs.symm.trans hs')
    have hbefore := (List.prefix_append as [a]).trans hpre
    exact hlost as s a t hpre (hinv as hbefore s hs) hst (halways _ hpre t ht)
  · intro hall
    have hparts : ∀ bs, bs <+: all → ∃ s, run step s₀ bs = .ok s ∧ inv bs s :=
      fun bs hpre => hguarded bs hpre fun as a s has => hall as a s (has.trans hpre)
    constructor
    · rcases hparts all (List.prefix_refl all) with ⟨u, hu, -⟩
      exact ⟨u, hu⟩
    · intro bs hpre s hs
      rcases hparts bs hpre with ⟨s', hs', hinv⟩
      obtain rfl : s = s' := Except.ok.inj (hs.symm.trans hs')
      exact hprop bs s hinv

/-- A counted loop `for i in [0, n)`: one step per index, each advancing the
relation by one. -/
theorem run_range {step : σ → ℕ → Except ε σ} (inv : ℕ → σ → Prop) {s₀ : σ} (n : ℕ)
    (hinit : inv 0 s₀)
    (hstep : ∀ j s, j < n → inv j s → ∃ t, step s j = .ok t ∧ inv (j + 1) t) :
    ∃ u, run step s₀ (List.range n) = .ok u ∧ inv n u := by
  induction n with
  | zero => exact ⟨s₀, rfl, hinit⟩
  | succ n ih =>
      rcases ih fun j s hj => hstep j s (Nat.lt_succ_of_lt hj) with ⟨t, ht, hinv⟩
      rcases hstep n t (Nat.lt_succ_self n) hinv with ⟨u, hu, hinv'⟩
      rw [List.range_succ]
      exact ⟨u, run_concat_ok.2 ⟨t, ht, hu⟩, hinv'⟩

/-! ## How computations fail -/

/-- There is one way for it to fail. -/
def FailsOnly (e : ε) (x : Except ε α) : Prop := ∀ e', x = .error e' → e' = e

namespace FailsOnly

variable {e : ε}

theorem ok (e : ε) (a : α) : FailsOnly e (.ok a) := by
  intro e' h
  cases h

theorem orFail (e : ε) (o : Option α) : FailsOnly e (orFail e o) := by
  intro e' h
  cases o with
  | none =>
      cases h
      rfl
  | some a => cases h

theorem require (e : ε) (p : Prop) [Decidable p] : FailsOnly e (require e p) := by
  intro e' h
  unfold Fallible.require at h
  split at h
  · cases h
  · cases h
    rfl

/-- A sequence fails as its parts do; the second one is reached only if the first
one succeeds. -/
theorem bind {x : Except ε α} {f : α → Except ε β} (hx : FailsOnly e x)
    (hf : ∀ a, x = .ok a → FailsOnly e (f a)) : FailsOnly e (x >>= f) := by
  intro e' h
  cases hres : x with
  | error e₁ =>
      rw [hres, error_bind] at h
      cases h
      exact hx e' hres
  | ok a =>
      rw [hres, ok_bind] at h
      exact hf a hres e' h

theorem run {step : σ → ι → Except ε σ} (hstep : ∀ s a, FailsOnly e (step s a)) (s : σ)
    (as : List ι) : FailsOnly e (run step s as) := by
  induction as generalizing s with
  | nil => exact ok e s
  | cons a as ih =>
      rw [run_cons]
      exact (hstep s a).bind fun t _ => ih t

end FailsOnly

end Fallible
