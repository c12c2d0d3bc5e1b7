import Smallkv.Lib.Fallible

/-!
# Unwinding — runs that differ in what nobody sees

Two machines take inputs, and an input shows something or nothing. Hidden inputs
keep a relation between the states, whichever machine takes them, and where one
machine takes an input the other can take any that shows the same. Then hidden
inputs can be left out of a run (`Unwinds.follow`), and runs that show the same
end in related states (`Unwinds.agree`).
-/

namespace Fallible

variable {ε : Type u} {σ₁ σ₂ : Type v} {ι : Type w} {τ : Type x}

/-- What one input has to keep. -/
structure Unwinds (view : ι → Option τ) (step₁ : σ₁ → ι → Except ε σ₁)
    (step₂ : σ₂ → ι → Except ε σ₂) (R : σ₁ → σ₂ → Prop) : Prop where
  left : ∀ {s s' t a}, R s t → view a = none → step₁ s a = .ok s' → R s' t
  right : ∀ {s t t' b}, R s t → view b = none → step₂ t b = .ok t' → R s t'
  both : ∀ {s s' t a b v}, R s t → view a = some v → view b = some v → step₁ s a = .ok s' →
    ∃ t', step₂ t b = .ok t' ∧ R s' t'

variable {view : ι → Option τ} {step₁ : σ₁ → ι → Except ε σ₁} {step₂ : σ₂ → ι → Except ε σ₂}
  {R : σ₁ → σ₂ → Prop} {s s' : σ₁} {t t' : σ₂}

theorem Unwinds.lefts (h : Unwinds view step₁ step₂ R) (hR : R s t) {as : List ι}
    (hhidden : as.filterMap view = []) (hrun : run step₁ s as = .ok s') : R s' t := by
  rw [List.filterMap_eq_nil_iff] at hhidden
  induction as generalizing s with
  | nil =>
      cases hrun
      exact hR
  | cons a as ih =>
      rcases bind_eq_ok.1 hrun with ⟨s₁, ha, hrun⟩
      have hR' := h.left hR (hhidden a List.mem_cons_self) ha
      exact ih hR' (fun b hb => hhidden b (List.mem_cons_of_mem a hb)) hrun

/-- The first machine takes hidden inputs up to the next one that shows something. -/
theorem Unwinds.next (h : Unwinds view step₁ step₂ R) (hR : R s t) {as : List ι} {v : τ}
    {vs : List τ} (hshown : as.filterMap view = v :: vs) (hrun : run step₁ s as = .ok s') :
    ∃ s₁ s₂ a rest, R s₁ t ∧ view a = some v ∧ step₁ s₁ a = .ok s₂ ∧
      rest.filterMap view = vs ∧ run step₁ s₂ rest = .ok s' := by
  induction as generalizing s with
  | nil => cases hshown
  | cons a as ih =>
      rcases bind_eq_ok.1 hrun with ⟨s₁, ha, hrun⟩
      cases hview : view a with
      | none =>
          rw [List.filterMap_cons_none hview] at hshown
          exact ih (h.left hR hview ha) hshown hrun
      | some v' =>
          rw [List.filterMap_cons_some hview, List.cons.injEq] at hshown
          rcases hshown with ⟨rfl, hshown⟩
          exact ⟨s, s₁, a, as, hR, hview, ha, hshown, hrun⟩

/-- What one machine has run, the other can run without the hidden inputs. -/
theorem Unwinds.follow (h : Unwinds view step₁ step₂ R) (hR : R s t) {as bs : List ι}
    (hrun : run step₁ s as = .ok s') (hshow : ∀ b ∈ bs, (view b).isSome)
    (hsame : as.filterMap view = bs.filterMap view) :
    ∃ t', run step₂ t bs = .ok t' ∧ R s' t' := by
  induction bs generalizing s t as with
  | nil => exact ⟨t, rfl, h.lefts hR hsame hrun⟩
  | cons b bs ih =>
      rcases Option.isSome_iff_exists.1 (hshow b List.mem_cons_self) with ⟨v, hb⟩
      rw [List.filterMap_cons_some hb] at hsame
      rcases h.next hR hsame hrun with ⟨s₁, s₂, a, rest, hR₁, ha, hstep, hrest, hrun'⟩
      rcases h.both hR₁ ha hb hstep with ⟨t₁, hstep', hR₂⟩
      rcases ih hR₂ hrun' (fun c hc => hshow c (List.mem_cons_of_mem b hc)) hrest with
        ⟨t', hbs, hR'⟩
      exact ⟨t', by rw [run_cons, hstep', ok_bind, hbs], hR'⟩

/-- Two runs that show the same. -/
theorem Unwinds.agree (h : Unwinds view step₁ step₂ R) (hR : R s t) {as bs : List ι}
    (hrun₁ : run step₁ s as = .ok s') (hrun₂ : run step₂ t bs = .ok t')
    (hsame : as.filterMap view = bs.filterMap view) : R s' t' := by
  induction bs generalizing s t as with
  | nil =>
      cases hrun₂
      exact h.lefts hR hsame hrun₁
  | cons b bs ih =>
      rcases bind_eq_ok.1 hrun₂ with ⟨t₁, hstep, hrun₂⟩
      cases hb : view b with
      | none =>
          rw [List.filterMap_cons_none hb] at hsame
          exact ih (h.right hR hb hstep) hrun₁ hrun₂ hsame
      | some v =>
          rw [List.filterMap_cons_some hb] at hsame
          rcases h.next hR hsame hrun₁ with ⟨s₁, s₂, a, rest, hR₁, ha, hstep₁, hrest, hrun'⟩
          rcases h.both hR₁ ha hb hstep₁ with ⟨t₂, hstep₂, hR₂⟩
          obtain rfl : t₁ = t₂ := Except.ok.inj (hstep.symm.trans hstep₂)
          exact ih hR₂ hrun' hrun₂ hrest

end Fallible
