import Mathlib

/-!
# Extents — where parts are in their concatenation

Parts that are written one after the other have consecutive ranges: every part
starts where the part before it ends. `extents` lists position and length of
each, and each range cuts its part out of the concatenation again.
-/

namespace Extents

variable {α : Type u}

/-- Position and length of every part, the first one at `start`. -/
def extents : ℕ → List (List α) → List (ℕ × ℕ)
  | _, [] => []
  | start, part :: parts => (start, part.length) :: extents (start + part.length) parts

@[simp] theorem extents_nil (start : ℕ) : extents start ([] : List (List α)) = [] := rfl

@[simp] theorem extents_cons (start : ℕ) (part : List α) (parts : List (List α)) :
    extents start (part :: parts) = (start, part.length) :: extents (start + part.length) parts :=
  rfl

@[simp] theorem length_extents (start : ℕ) (parts : List (List α)) :
    (extents start parts).length = parts.length := by
  induction parts generalizing start with
  | nil => rfl
  | cons part parts ih => simp [ih]

/-- A part is behind all the parts in front of it. -/
theorem getElem?_extents (start : ℕ) (parts : List (List α)) (i : ℕ) :
    (extents start parts)[i]? =
      parts[i]?.map fun part => (start + (parts.take i).flatten.length, part.length) := by
  induction parts generalizing start i with
  | nil => rfl
  | cons part parts ih =>
      cases i with
      | zero => simp
      | succ i => simp [ih, Nat.add_assoc]

/-- The concatenation around one of its parts. -/
theorem flatten_split {parts : List (List α)} {i : ℕ} {part : List α} (h : parts[i]? = some part) :
    parts.flatten = (parts.take i).flatten ++ part ++ (parts.drop (i + 1)).flatten := by
  induction parts generalizing i with
  | nil => simp at h
  | cons first parts ih =>
      cases i with
      | zero =>
          obtain rfl : first = part := by simpa using h
          simp
      | succ i =>
          have htail := ih (by simpa using h)
          simp only [List.flatten_cons, List.take_succ_cons, List.drop_succ_cons, List.append_assoc]
            at htail ⊢
          rw [← htail]

/-- Parts are cut apart again if one knows how long each of them is, whatever is behind. -/
theorem splitLengths_flatten (parts : List (List α)) (rest : List α) :
    (parts.map List.length).splitLengths (parts.flatten ++ rest) = parts := by
  induction parts with
  | nil => rfl
  | cons part parts ih =>
      rw [List.map_cons, List.splitLengths_cons, List.flatten_cons, List.append_assoc,
        List.take_left, List.drop_left, ih]

end Extents
