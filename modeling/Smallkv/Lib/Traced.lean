import Smallkv.Lib.Fallible

/-!
# Traced — computations that report what they do

A computation that may fail and that reports events on its way. What it reported
before a failure stays reported. A program is instrumented by writing it once
more with reports in it; `result` of the copy is then shown to be the program,
and the reports say what the program does inside (`Reports`), also where it
fails.
-/

open Fallible

/-- The events in the order they were reported, and the result or the failure. -/
structure Traced (ω : Type w) (ε : Type u) (α : Type v) where
  events : List ω
  result : Except ε α

namespace Traced

variable {ω : Type w} {ε : Type u} {α β σ : Type v} {ι : Type x}

/-- After a failure nothing more is reported. -/
def bind (x : Traced ω ε α) (f : α → Traced ω ε β) : Traced ω ε β :=
  match x.result with
  | .error e => ⟨x.events, .error e⟩
  | .ok a => ⟨x.events ++ (f a).events, (f a).result⟩

instance : Monad (Traced ω ε) where
  pure a := ⟨[], .ok a⟩
  bind := Traced.bind

/-- Something happens that is worth a report. -/
def report (e : ω) : Traced ω ε PUnit := ⟨[e], .ok PUnit.unit⟩

/-- A computation with nothing to report. -/
def lift (x : Except ε α) : Traced ω ε α := ⟨[], x⟩

@[simp] theorem pure_result (a : α) : (pure a : Traced ω ε α).result = .ok a := rfl

@[simp] theorem pure_events (a : α) : (pure a : Traced ω ε α).events = [] := rfl

@[simp] theorem report_result (e : ω) : (report e : Traced ω ε PUnit).result = .ok PUnit.unit := rfl

@[simp] theorem report_events (e : ω) : (report e : Traced ω ε PUnit).events = [e] := rfl

@[simp] theorem lift_result (x : Except ε α) : (lift x : Traced ω ε α).result = x := rfl

@[simp] theorem lift_events (x : Except ε α) : (lift x : Traced ω ε α).events = [] := rfl

@[simp] theorem bind_result (x : Traced ω ε α) (f : α → Traced ω ε β) :
    (x >>= f).result = x.result >>= fun a => (f a).result := by
  show (Traced.bind x f).result = _
  unfold Traced.bind
  cases x.result with
  | error e => rfl
  | ok a => rfl

theorem bind_events_of_ok {x : Traced ω ε α} {a : α} (h : x.result = .ok a)
    (f : α → Traced ω ε β) : (x >>= f).events = x.events ++ (f a).events := by
  show (Traced.bind x f).events = _
  rw [Traced.bind, h]

theorem bind_events_of_error {x : Traced ω ε α} {e : ε} (h : x.result = .error e)
    (f : α → Traced ω ε β) : (x >>= f).events = x.events := by
  show (Traced.bind x f).events = _
  rw [Traced.bind, h]

/-! ## What is reported -/

/-- Every event that is reported has the property. -/
def Reports (P : ω → Prop) (x : Traced ω ε α) : Prop := ∀ e ∈ x.events, P e

namespace Reports

variable {P : ω → Prop}

theorem pure (P : ω → Prop) (a : α) : Reports P (pure a : Traced ω ε α) := by
  intro e he
  cases he

theorem lift (P : ω → Prop) (x : Except ε α) : Reports P (lift x : Traced ω ε α) := by
  intro e he
  cases he

theorem report {e : ω} (h : P e) : Reports P (report e : Traced ω ε PUnit) := by
  intro e' he
  rw [report_events, List.mem_singleton] at he
  exact he ▸ h

/-- The second part of a sequence is reached only if the first one succeeds. -/
theorem bind {x : Traced ω ε α} {f : α → Traced ω ε β} (hx : Reports P x)
    (hf : ∀ a, x.result = .ok a → Reports P (f a)) : Reports P (x >>= f) := by
  intro e he
  cases hres : x.result with
  | error e₁ =>
      rw [bind_events_of_error hres] at he
      exact hx e he
  | ok a =>
      rw [bind_events_of_ok hres] at he
      rcases List.mem_append.1 he with he | he
      · exact hx e he
      · exact hf a hres e he

/-- A loop whose steps keep an invariant and report under it what they may. -/
theorem foldlM {step : σ → ι → Traced ω ε σ} (inv : σ → Prop) {as : List ι}
    (hstep : ∀ s, inv s → ∀ a ∈ as, Reports P (step s a))
    (hkeep : ∀ s, inv s → ∀ a ∈ as, ∀ t, (step s a).result = .ok t → inv t) {s : σ} (hs : inv s) :
    Reports P (as.foldlM step s) := by
  induction as generalizing s with
  | nil => exact Reports.pure P s
  | cons a as ih =>
      rw [List.foldlM_cons]
      refine (hstep s hs a List.mem_cons_self).bind fun t ht => ?_
      refine ih (fun s hs b hb => hstep s hs b (List.mem_cons_of_mem a hb))
        (fun s hs b hb => hkeep s hs b (List.mem_cons_of_mem a hb)) ?_
      exact hkeep s hs a List.mem_cons_self t ht

end Reports

/-- Two copies of a loop that agree in every step agree. -/
theorem foldlM_result {step : σ → ι → Traced ω ε σ} {step' : σ → ι → Except ε σ}
    (h : ∀ s a, (step s a).result = step' s a) (s : σ) (as : List ι) :
    (as.foldlM step s).result = run step' s as := by
  induction as generalizing s with
  | nil => rfl
  | cons a as ih =>
      rw [List.foldlM_cons, bind_result, h, run_cons]
      congr 1
      funext t
      exact ih t

/-! ## How often -/

/-- The number of reports of a kind. -/
def count (p : ω → Bool) (x : Traced ω ε α) : ℕ := x.events.countP p

variable {p : ω → Bool}

@[simp] theorem count_pure (a : α) : count p (pure a : Traced ω ε α) = 0 := rfl

@[simp] theorem count_lift (x : Except ε α) : count p (lift x : Traced ω ε α) = 0 := rfl

@[simp] theorem count_report (e : ω) :
    count p (report e : Traced ω ε PUnit) = if p e then 1 else 0 := by
  simp [count, List.countP_cons]

theorem count_eq_zero {x : Traced ω ε α} (h : Reports (fun e => p e = false) x) : count p x = 0 := by
  rw [count, List.countP_eq_zero]
  intro e he
  simp [h e he]

/-- A sequence reports what its parts report. -/
theorem count_bind_le {x : Traced ω ε α} {f : α → Traced ω ε β} {m n : ℕ} (hx : count p x ≤ m)
    (hf : ∀ a, x.result = .ok a → count p (f a) ≤ n) : count p (x >>= f) ≤ m + n := by
  unfold count at hx hf ⊢
  cases hres : x.result with
  | error e =>
      rw [bind_events_of_error hres]
      omega
  | ok a =>
      rw [bind_events_of_ok hres, List.countP_append]
      have hsecond := hf a hres
      omega

end Traced
