import Smallkv.Lib.Fallible

/-!
# Loops — what a loop goes through

A loop repeats its body until the body is done; the body can also fail. The
states that the loop goes through are those that its passes lead to
(`Visits`). What is true of the first one and is kept by a pass is true of all
of them, and where the loop returns, the body has failed at none.
-/

namespace Fallible

/-- A pass of a loop is the last one, or the loop goes on with a new state. -/
inductive Pass (α : Type u) (σ : Type v) where
  | done (a : α)
  | again (s : σ)

variable {ε : Type u} {α σ : Type v} {body : σ → Except ε (Pass α σ)} {s t : σ}

def Pass.andThen (rest : σ → Except ε α) : Pass α σ → Except ε α
  | .done a => .ok a
  | .again t => rest t

/-- At most so many passes; `e` says that they were not enough. -/
def loop (body : σ → Except ε (Pass α σ)) (e : ε) : ℕ → σ → Except ε α
  | 0, _ => .error e
  | fuel + 1, s => body s >>= Pass.andThen (loop body e fuel)

/-- A recursion that makes one pass at a time is the loop. -/
theorem eq_loop {e : ε} {f : ℕ → σ → Except ε α} (hzero : ∀ s, f 0 s = .error e)
    (hsucc : ∀ fuel s, f (fuel + 1) s = body s >>= Pass.andThen (f fuel)) (fuel : ℕ) (s : σ) :
    f fuel s = loop body e fuel s := by
  induction fuel generalizing s with
  | zero => exact hzero s
  | succ fuel ih =>
      have hrest : f fuel = loop body e fuel := funext ih
      rw [hsucc, hrest, loop]

/-- The loop goes through the state. -/
def Visits (body : σ → Except ε (Pass α σ)) : σ → σ → Prop :=
  Relation.ReflTransGen fun s t => body s = .ok (.again t)

theorem Visits.invariant (h : Visits body s t) (inv : σ → Prop) (hs : inv s)
    (hpass : ∀ s t, inv s → body s = .ok (.again t) → inv t) : inv t := by
  induction h with
  | refl => exact hs
  | tail _ hbody ih => exact hpass _ _ ih hbody

theorem loop_done {e : ε} {fuel : ℕ} {a : α} (hbody : body s = .ok (.done a)) :
    loop body e (fuel + 1) s = .ok a := by
  rw [loop, hbody]
  rfl

theorem loop_again {e : ε} {fuel : ℕ} (hbody : body s = .ok (.again t)) :
    loop body e (fuel + 1) s = loop body e fuel t := by
  rw [loop, hbody]
  rfl

/-- A loop that returns goes on to return from every state it goes through. -/
theorem Visits.loop_ok {e : ε} {fuel : ℕ} {a : α} (h : Visits body s t)
    (hloop : loop body e fuel s = .ok a) : ∃ fuel, loop body e (fuel + 1) t = .ok a := by
  induction h using Relation.ReflTransGen.head_induction_on generalizing fuel with
  | refl =>
      cases fuel with
      | zero => cases hloop
      | succ fuel => exact ⟨fuel, hloop⟩
  | head hbody _ ih =>
      cases fuel with
      | zero => cases hloop
      | succ fuel =>
          rw [loop_again hbody] at hloop
          exact ih hloop

/-- So the body fails at none of these states. -/
theorem Visits.body_ok {e : ε} {fuel : ℕ} {a : α} (h : Visits body s t)
    (hloop : loop body e fuel s = .ok a) : ∃ p, body t = .ok p := by
  rcases h.loop_ok hloop with ⟨fuel, hrest⟩
  rcases bind_eq_ok.1 hrest with ⟨p, hbody, -⟩
  exact ⟨p, hbody⟩

/-- And what it is done with is what the loop returns. -/
theorem Visits.done_eq {e : ε} {fuel : ℕ} {a b : α} (h : Visits body s t)
    (hloop : loop body e fuel s = .ok a) (hbody : body t = .ok (.done b)) : a = b := by
  rcases h.loop_ok hloop with ⟨fuel, hrest⟩
  rw [loop_done hbody] at hrest
  exact (Except.ok.inj hrest).symm

end Fallible
