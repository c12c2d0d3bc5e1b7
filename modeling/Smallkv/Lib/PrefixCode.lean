import Mathlib

/-!
# PrefixCode — streams of self-delimiting items

An item is written after the items before it, which are summarised by a state:
`enc s a` are its bytes, `dec s` takes one item off the front of a stream and
`next s a` is the state behind it. Where `dec` undoes `enc` whatever follows,
reading a stream until it is empty undoes writing a list of items
(`decodeAll_encodeAll`). A reader may keep a smaller state than the writer and
may learn more than the items; `mapAll` lists what it learns.
-/

namespace PrefixCode

variable {α β γ : Type u} {σ : Type v} {τ : Type w}

/-- The items written one after the other. -/
def encodeAll (enc : σ → α → List β) (next : σ → α → σ) : σ → List α → List β
  | _, [] => []
  | s, a :: as => enc s a ++ encodeAll enc next (next s a) as

/-- Read items until the stream is empty, at most `fuel` of them. -/
def decodeLoop (dec : σ → List β → Option (α × List β)) (next : σ → α → σ) :
    ℕ → σ → List β → Option (List α)
  | _, _, [] => some []
  | 0, _, _ :: _ => none
  | fuel + 1, s, b :: bs => do
    let (a, rest) ← dec s (b :: bs)
    let as ← decodeLoop dec next fuel (next s a) rest
    pure (a :: as)

/-- An item takes at least one symbol, so the length bounds their number. -/
def decodeAll (dec : σ → List β → Option (α × List β)) (next : σ → α → σ) (s : σ)
    (bs : List β) : Option (List α) :=
  decodeLoop dec next bs.length s bs

/-- What a reader is to learn from the items, each in the state it is written in. -/
def mapAll (g : σ → α → γ) (next : σ → α → σ) : σ → List α → List γ
  | _, [] => []
  | s, a :: as => g s a :: mapAll g next (next s a) as

section Laws

variable {enc : σ → α → List β} {dec : σ → List β → Option (α × List β)} {next : σ → α → σ}

@[simp] theorem encodeAll_nil (s : σ) : encodeAll enc next s [] = [] := rfl

@[simp] theorem encodeAll_cons (s : σ) (a : α) (as : List α) :
    encodeAll enc next s (a :: as) = enc s a ++ encodeAll enc next (next s a) as := rfl

/-- The state behind a list of items. -/
def nextAll (next : σ → α → σ) (s : σ) (as : List α) : σ := as.foldl next s

theorem encodeAll_append (s : σ) (as bs : List α) :
    encodeAll enc next s (as ++ bs) =
      encodeAll enc next s as ++ encodeAll enc next (nextAll next s as) bs := by
  induction as generalizing s with
  | nil => rfl
  | cons a as ih => simp [ih, nextAll]

theorem encodeAll_concat (s : σ) (as : List α) (a : α) :
    encodeAll enc next s (as ++ [a]) =
      encodeAll enc next s as ++ enc (nextAll next s as) a := by
  simp [encodeAll_append]

/-- Without a state the items are written one after the other. -/
theorem encodeAll_stateless (enc : α → List β) (as : List α) :
    encodeAll (fun (_ : Unit) => enc) (fun _ _ => ()) () as = as.flatMap enc := by
  induction as with
  | nil => rfl
  | cons a as ih => rw [encodeAll_cons, ih, List.flatMap_cons]

/-- Reading one item off a stream that starts with it. -/
theorem decodeLoop_step {fuel : ℕ} {s : σ} {bs rest : List β} {a : α}
    (hdec : dec s bs = some (a, rest)) (hne : bs ≠ []) :
    decodeLoop dec next (fuel + 1) s bs =
      (decodeLoop dec next fuel (next s a) rest).map (a :: ·) := by
  rcases List.exists_cons_of_ne_nil hne with ⟨b, bs, rfl⟩
  cases hrest : decodeLoop dec next fuel (next s a) rest with
  | none => simp [decodeLoop, hdec, hrest]
  | some as => simp [decodeLoop, hdec, hrest]

/-- What is read off a non-empty stream is some item and then the rest. -/
theorem decodeLoop_eq_some {fuel : ℕ} {s : σ} {bs : List β} {as : List α} (hne : bs ≠ [])
    (h : decodeLoop dec next fuel s bs = some as) :
    ∃ a rest as' n, dec s bs = some (a, rest) ∧ fuel = n + 1 ∧
      decodeLoop dec next n (next s a) rest = some as' ∧ as = a :: as' := by
  rcases List.exists_cons_of_ne_nil hne with ⟨b, bs, rfl⟩
  cases fuel with
  | zero => simp [decodeLoop] at h
  | succ fuel =>
      cases hdec : dec s (b :: bs) with
      | none => simp [decodeLoop, hdec] at h
      | some p =>
          rcases p with ⟨a, rest⟩
          rw [decodeLoop_step hdec (List.cons_ne_nil b bs), Option.map_eq_some_iff] at h
          rcases h with ⟨as', has', rfl⟩
          exact ⟨a, rest, as', fuel, rfl, rfl, has', rfl⟩

theorem mapAll_snd (s : σ) (as : List α) : mapAll (fun _ a => a) next s as = as := by
  induction as generalizing s with
  | nil => rfl
  | cons a as ih => rw [mapAll, ih]

theorem getElem?_mapAll (g : σ → α → γ) (s : σ) (as : List α) (i : ℕ) :
    (mapAll g next s as)[i]? = as[i]?.map (g (nextAll next s (as.take i))) := by
  induction as generalizing s i with
  | nil => simp [mapAll]
  | cons a as ih =>
      cases i with
      | zero => simp [mapAll, nextAll]
      | succ i => simp [mapAll, nextAll, ih]

/-- Where `dec`, in its own state, learns `g s a` from the items that satisfy
`P`, it learns this from every item of a list. -/
theorem decodeAll_mapAll {g : σ → α → γ} {dec : τ → List β → Option (γ × List β)}
    {step : τ → γ → τ} {φ : σ → τ} {P : α → Prop}
    (hlaw : ∀ s a rest, P a → dec (φ s) (enc s a ++ rest) = some (g s a, rest))
    (hstep : ∀ s a, step (φ s) (g s a) = φ (next s a)) (hne : ∀ s a, enc s a ≠ []) (s : σ)
    {as : List α} (has : ∀ a ∈ as, P a) :
    decodeAll dec step (φ s) (encodeAll enc next s as) = some (mapAll g next s as) := by
  have hloop : ∀ fuel, (encodeAll enc next s as).length ≤ fuel →
      decodeLoop dec step fuel (φ s) (encodeAll enc next s as) = some (mapAll g next s as) := by
    induction as generalizing s with
    | nil =>
        intro fuel _
        cases fuel <;> rfl
    | cons a as ih =>
        intro fuel hfuel
        have hpos : 0 < (enc s a).length := List.length_pos_of_ne_nil (hne s a)
        simp only [encodeAll_cons, List.length_append] at hfuel
        obtain ⟨fuel, rfl⟩ : ∃ n, fuel = n + 1 := ⟨fuel - 1, by omega⟩
        rw [encodeAll_cons, decodeLoop_step (hlaw s a _ (has a (by simp))) (by simp [hne]), hstep,
          ih (next s a) (fun b hb => has b (by simp [hb])) fuel (by omega)]
        rfl
  exact hloop _ le_rfl

/-- Where `dec` undoes `enc` on the items that satisfy `P`, reading undoes
writing for every list of such items. -/
theorem decodeAll_encodeAll {P : α → Prop}
    (hlaw : ∀ s a rest, P a → dec s (enc s a ++ rest) = some (a, rest))
    (hne : ∀ s a, enc s a ≠ []) (s : σ) {as : List α} (has : ∀ a ∈ as, P a) :
    decodeAll dec next s (encodeAll enc next s as) = some as := by
  have h : decodeAll dec next s (encodeAll enc next s as) =
      some (mapAll (fun _ a => a) next s as) :=
    decodeAll_mapAll hlaw (fun _ _ => rfl) hne s has
  rwa [mapAll_snd] at h

end Laws

end PrefixCode
