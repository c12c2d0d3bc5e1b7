import Smallkv.Lib.Fallible

/-!
# Dialogue — programs that put questions to their environment

A program either ends or asks and goes on with the answer. An environment with
a state of its own answers, or fails (`run`). What the program asked for is a
list (`asked`), of which a failed question is the last.
-/

/-- A program that asks questions of type `Q` and ends with an `α`. -/
inductive Dialogue (Q : Type u) (A : Type v) (α : Type w) where
  | done (a : α)
  | ask (q : Q) (next : A → Dialogue Q A α)

namespace Dialogue

open Fallible

variable {Q : Type u} {A α σ : Type v} {ε : Type w}

/-- Question by question, till the program ends or the environment fails. -/
def run (env : σ → Q → Except ε (σ × A)) (s : σ) : Dialogue Q A α → Except ε (σ × α)
  | .done a => .ok (s, a)
  | .ask q next => env s q >>= fun r => run env r.1 (next r.2)

/-- The questions that are asked; one that the environment fails at is the last. -/
def asked (env : σ → Q → Except ε (σ × A)) (s : σ) : Dialogue Q A α → List Q
  | .done _ => []
  | .ask q next =>
    match env s q with
    | .error _ => [q]
    | .ok r => q :: asked env r.1 (next r.2)

variable {env : σ → Q → Except ε (σ × A)} {s : σ}

@[simp] theorem asked_done (a : α) : asked env s (.done a : Dialogue Q A α) = [] := rfl

/-- A question whose answer ends the program. -/
@[simp] theorem asked_ask_done (q : Q) (f : A → α) :
    asked env s (.ask q fun a => .done (f a)) = [q] := by
  unfold asked
  split
  · rfl
  · rw [asked_done]

end Dialogue
