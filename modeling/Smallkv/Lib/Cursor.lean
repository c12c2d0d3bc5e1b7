import Smallkv.Lib.Fallible

/-!
# Cursor — what a cursor goes through

A cursor is asked whether it stands on an entry, what the entry is, and to move
on; each of the last three can fail. `Yields c s l` says that from `s` on these
calls hand out the list `l` and then end. A cursor that is built on another one
yields what that one does (`Yields.lift`).
-/

namespace Fallible

/-- The calls of a cursor with states `σ` over pairs of `K` and `V`. -/
structure Cursor (ε : Type u) (σ : Type v) (K : Type v) (V : Type v) where
  valid : σ → Bool
  key : σ → Except ε K
  value : σ → Except ε V
  next : σ → Except ε σ

namespace Cursor

variable {ε : Type u} {σ τ K V : Type v} {c : Cursor ε σ K V} {d : Cursor ε τ K V}

/-- Asking for key and value and moving on, as long as the cursor is valid. -/
inductive Yields (c : Cursor ε σ K V) : σ → List (K × V) → Prop
  | done {s : σ} (hvalid : c.valid s = false) : Yields c s []
  | step {s t : σ} {k : K} {v : V} {l : List (K × V)} (hvalid : c.valid s = true)
      (hkey : c.key s = .ok k) (hvalue : c.value s = .ok v) (hnext : c.next s = .ok t)
      (hrest : Yields c t l) : Yields c s ((k, v) :: l)

/-- A cursor whose calls go through to another one. -/
theorem Yields.lift {s : σ} {l : List (K × V)} (h : Yields c s l) (f : σ → τ)
    (hvalid : ∀ s, d.valid (f s) = c.valid s) (hkey : ∀ s, d.key (f s) = c.key s)
    (hvalue : ∀ s, d.value (f s) = c.value s)
    (hnext : ∀ s t, c.next s = .ok t → d.next (f s) = .ok (f t)) : Yields d (f s) l := by
  induction h with
  | done h => exact .done ((hvalid _).trans h)
  | step h1 h2 h3 h4 _ ih =>
      exact .step ((hvalid _).trans h1) ((hkey _).trans h2) ((hvalue _).trans h3)
        (hnext _ _ h4) ih

end Cursor

end Fallible
