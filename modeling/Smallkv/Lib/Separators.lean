import Mathlib

/-!
# Separators — finding the part that holds a key

Keys are spread over parts, and a separator is kept behind each of them. Where
every separator is above its part and not above the next one, the first
separator above a key is that of the part with the key, so a search needs the
separators only. Where instead the first key of every part is known, the last of
them that is not above a key starts the only part that may hold it (`MayHold`).
-/

namespace Separators

theorem getElem?_concat_eq_some {β : Type v} {l : List β} {a b : β} {i : ℕ} :
    (l ++ [a])[i]? = some b ↔ l[i]? = some b ∨ i = l.length ∧ a = b := by
  rw [List.getElem?_append]
  split
  · rename_i hi
    constructor
    · exact Or.inl
    · rintro (h | ⟨rfl, -⟩)
      · exact h
      · omega
  · rename_i hi
    rw [List.getElem?_eq_none (not_lt.1 hi), List.getElem?_singleton]
    split
    · rename_i hzero
      simp only [Option.some.injEq, reduceCtorEq, false_or, iff_and_self]
      intro _
      omega
    · rename_i hne
      simp only [reduceCtorEq, false_or, false_iff, not_and]
      intro heq
      omega

variable {α : Type u} [LinearOrder α]

/-- A separator is above every key of its part and not above any key of the next. -/
structure Routes (parts : List (List α)) (seps : List α) : Prop where
  above : ∀ (i : ℕ) part sep, parts[i]? = some part → seps[i]? = some sep → ∀ a ∈ part, a < sep
  below : ∀ (i : ℕ) part sep, parts[i + 1]? = some part → seps[i]? = some sep → ∀ a ∈ part, sep ≤ a

theorem routes_nil : Routes ([] : List (List α)) [] := by
  constructor
  · intro i part sep hpart
    simp at hpart
  · intro i part sep hpart
    simp at hpart

section Concat

variable {parts : List (List α)} {seps : List α} {part : List α} {sep : α}

theorem Routes.of_concat (hlen : seps.length = parts.length)
    (h : Routes (parts ++ [part]) (seps ++ [sep])) :
    Routes parts seps ∧ (∀ last ∈ seps.getLast?, ∀ a ∈ part, last ≤ a) ∧ ∀ a ∈ part, a < sep := by
  refine ⟨⟨?_, ?_⟩, ?_, ?_⟩
  · intro i part' sep' hpart hsep
    exact h.above i part' sep' (getElem?_concat_eq_some.2 (Or.inl hpart))
      (getElem?_concat_eq_some.2 (Or.inl hsep))
  · intro i part' sep' hpart hsep
    exact h.below i part' sep' (getElem?_concat_eq_some.2 (Or.inl hpart))
      (getElem?_concat_eq_some.2 (Or.inl hsep))
  · intro last hlast
    rw [Option.mem_def, List.getLast?_eq_getElem?] at hlast
    have hpos : seps.length - 1 < seps.length := (List.getElem?_eq_some_iff.1 hlast).1
    refine h.below (seps.length - 1) part last (getElem?_concat_eq_some.2 (Or.inr ⟨?_, rfl⟩))
      (getElem?_concat_eq_some.2 (Or.inl hlast))
    omega
  · exact h.above parts.length part sep (getElem?_concat_eq_some.2 (Or.inr ⟨rfl, rfl⟩))
      (getElem?_concat_eq_some.2 (Or.inr ⟨hlen.symm, rfl⟩))

theorem Routes.concat (hlen : seps.length = parts.length) (h : Routes parts seps)
    (hlast : ∀ last ∈ seps.getLast?, ∀ a ∈ part, last ≤ a) (hpart : ∀ a ∈ part, a < sep) :
    Routes (parts ++ [part]) (seps ++ [sep]) := by
  constructor
  · intro i part' sep' hpart' hsep'
    rcases getElem?_concat_eq_some.1 hpart' with hold | ⟨rfl, rfl⟩
    · rcases getElem?_concat_eq_some.1 hsep' with hsep | ⟨rfl, -⟩
      · exact h.above i part' sep' hold hsep
      · have hlt := (List.getElem?_eq_some_iff.1 hold).1
        omega
    · rcases getElem?_concat_eq_some.1 hsep' with hsep | ⟨-, rfl⟩
      · have hlt := (List.getElem?_eq_some_iff.1 hsep).1
        omega
      · exact hpart
  · intro i part' sep' hpart' hsep'
    rcases getElem?_concat_eq_some.1 hpart' with hold | ⟨hi, rfl⟩
    · have hlt := (List.getElem?_eq_some_iff.1 hold).1
      rcases getElem?_concat_eq_some.1 hsep' with hsep | ⟨rfl, -⟩
      · exact h.below i part' sep' hold hsep
      · omega
    · -- the separator in front of the new part is the last of the old ones
      rcases getElem?_concat_eq_some.1 hsep' with hsep | ⟨rfl, -⟩
      · refine hlast sep' ?_
        rw [Option.mem_def, List.getLast?_eq_getElem?, ← hsep]
        congr 1
        omega
      · omega

/-- One more part with a separator behind it. -/
theorem routes_concat (hlen : seps.length = parts.length) :
    Routes (parts ++ [part]) (seps ++ [sep]) ↔
      Routes parts seps ∧ (∀ last ∈ seps.getLast?, ∀ a ∈ part, last ≤ a) ∧ ∀ a ∈ part, a < sep := by
  constructor
  · exact Routes.of_concat hlen
  · rintro ⟨h, hlast, hpart⟩
    exact h.concat hlen hlast hpart

end Concat

/-! ## Search -/

section Search

variable {parts : List (List α)} {seps : List α}

/-- No separator in front of a part is above its keys. -/
theorem Routes.sep_le (h : Routes parts seps) (hlen : seps.length = parts.length)
    (hne : ∀ part ∈ parts, part ≠ []) {i j : ℕ} (hij : j < i) {part : List α} {sep : α}
    (hpart : parts[i]? = some part) (hsep : seps[j]? = some sep) : ∀ a ∈ part, sep ≤ a := by
  induction i generalizing part with
  | zero => omega
  | succ i ih =>
      rcases Nat.lt_succ_iff_lt_or_eq.1 hij with hlt | rfl
      · -- over a key of the part in between
        have hi : i + 1 < parts.length := (List.getElem?_eq_some_iff.1 hpart).1
        have hbetween : parts[i]? = some parts[i] := List.getElem?_eq_getElem (by omega)
        have hsepi : seps[i]? = some seps[i] := List.getElem?_eq_getElem (by omega)
        rcases List.exists_mem_of_ne_nil _ (hne parts[i] (List.getElem_mem _)) with ⟨b, hb⟩
        intro a ha
        calc sep ≤ b := ih hlt hbetween b hb
          _ ≤ seps[i] := (h.above i _ _ hbetween hsepi b hb).le
          _ ≤ a := h.below i _ _ hpart hsepi a ha
      · exact h.below j part sep hpart hsep

/-- The first separator above a key is that of its part. -/
theorem Routes.findIdx?_eq (h : Routes parts seps) (hlen : seps.length = parts.length)
    (hne : ∀ part ∈ parts, part ≠ []) {i : ℕ} {part : List α} (hpart : parts[i]? = some part)
    {a : α} (ha : a ∈ part) : seps.findIdx? (fun sep => a < sep) = some i := by
  have hi : i < seps.length := hlen ▸ (List.getElem?_eq_some_iff.1 hpart).1
  rw [List.findIdx?_eq_some_iff_getElem]
  refine ⟨hi, ?_, ?_⟩
  · simpa using h.above i part seps[i] hpart (List.getElem?_eq_getElem hi) a ha
  · intro j hji
    simpa using h.sep_le hlen hne hji hpart (List.getElem?_eq_getElem (by omega)) a ha

/-- Nothing is found for a key that is not below the last separator. -/
theorem Routes.findIdx?_eq_none (h : Routes parts seps) (hlen : seps.length = parts.length)
    (hne : ∀ part ∈ parts, part ≠ []) {a : α} (ha : ∀ last ∈ seps.getLast?, last ≤ a) :
    seps.findIdx? (fun sep => a < sep) = none := by
  rw [List.findIdx?_eq_none_iff]
  intro sep hsep
  rcases List.getElem_of_mem hsep with ⟨j, hj, rfl⟩
  have hlast : seps[seps.length - 1]? = some seps[seps.length - 1] :=
    List.getElem?_eq_getElem (by omega)
  have hlastLe := ha seps[seps.length - 1] (by rw [Option.mem_def, List.getLast?_eq_getElem?, hlast])
  have hle : seps[j] ≤ seps[seps.length - 1] := by
    rcases (Nat.le_sub_one_of_lt hj).lt_or_eq with hlt | heq
    · -- over a key of the last part
      have hpart : parts[seps.length - 1]? = some parts[seps.length - 1] :=
        List.getElem?_eq_getElem (by omega)
      rcases List.exists_mem_of_ne_nil _ (hne parts[seps.length - 1] (List.getElem_mem _)) with
        ⟨b, hb⟩
      calc seps[j] ≤ b := h.sep_le hlen hne hlt hpart (List.getElem?_eq_getElem hj) b hb
        _ ≤ seps[seps.length - 1] := (h.above _ _ _ hpart hlast b hb).le
    · simp only [heq, le_refl]
  simpa using hle.trans hlastLe

end Search

/-! ## First keys -/

/-- Of `n` parts with the first keys `f`, part `i` may hold `a`: its first key is
not above `a`, and that of the next part is. -/
structure MayHold (f : ℕ → α) (n : ℕ) (a : α) (i : ℕ) : Prop where
  lt : i < n
  first_le : f i ≤ a
  lt_next : i + 1 < n → a < f (i + 1)

/-- Where first keys increase, one part at most may hold a key. -/
theorem MayHold.unique {f : ℕ → α} {n : ℕ} (hmono : ∀ i j, i ≤ j → j < n → f i ≤ f j) {a : α}
    {i j : ℕ} (hi : MayHold f n a i) (hj : MayHold f n a j) : i = j := by
  have hnot : ∀ {i j}, MayHold f n a i → MayHold f n a j → ¬ i < j := by
    intro i j hi hj hlt
    have hjn := hj.lt
    have hnext : a < a := calc
      a < f (i + 1) := hi.lt_next (by omega)
      _ ≤ f j := hmono (i + 1) j hlt hjn
      _ ≤ a := hj.first_le
    exact lt_irrefl a hnext
  have h1 := hnot hi hj
  have h2 := hnot hj hi
  omega

end Separators
