import Smallkv.MemTable.Towers

/-!
# MemTable.Relink — rewiring the pointers of a chain

`Insert` and `Delete` change single pointers, level by level, while they still
read others. `Patched h₀ h f` records where a heap stands in such a loop: it is
`h₀` with the pointers that `f` lists replaced. One rule for a read and one for
a write carry both loops, and the chain that results is read off the final
patch.
-/

namespace Smallkv

open Fallible

/-- Replace the pointers that `g` lists. -/
def Node.patch {Key Value : Type} (n : Node Key Value) (g : ℕ → Option (Option Ptr)) :
    Node Key Value :=
  { n with next := n.next.mapIdx fun i q => (g i).getD q }

@[simp] theorem Node.patch_none {Key Value : Type} (n : Node Key Value) :
    n.patch (fun _ => none) = n := by
  have hnext : n.next.mapIdx (fun _ q => q) = n.next := by
    rw [List.mapIdx_eq_iff]
    simp
  simp [Node.patch, hnext]

namespace SkipList

open Tower

variable {Key Value : Type}

/-- `h` is `h₀` with the pointers that `f` lists replaced. -/
def Patched (h₀ h : Arena (Node Key Value)) (f : Ptr → ℕ → Option (Option Ptr)) : Prop :=
  ∀ q, h.load q = (h₀.load q).map fun n => n.patch (f q)

variable {h₀ h : Arena (Node Key Value)} {f g : Ptr → ℕ → Option (Option Ptr)}

theorem Patched.refl (h : Arena (Node Key Value)) : Patched h h fun _ _ => none := by
  intro q
  simp

theorem Patched.congr (hp : Patched h₀ h f) (hfg : ∀ q i, f q i = g q i) : Patched h₀ h g := by
  have heq : f = g := funext fun q => funext fun i => hfg q i
  exact heq ▸ hp

theorem Patched.nextAt_eq (hp : Patched h₀ h f) {p : Ptr} {n : Node Key Value}
    (hload : h₀.load p = some n) {i : ℕ} {q : Option Ptr} (hi : n.next[i]? = some q) :
    nextAt h p i = .ok ((f p i).getD q) := by
  simp [nextAt, hp p, hload, Node.patch, List.getElem?_mapIdx, hi]

theorem Patched.setNextAt_ok (hp : Patched h₀ h f) {p : Ptr} {n : Node Key Value}
    (hload : h₀.load p = some n) {i : ℕ} (hi : i < n.next.length) (q : Option Ptr) :
    ∃ h', setNextAt h p i q = .ok h' ∧
      Patched h₀ h' fun r j => if r = p ∧ j = i then some q else f r j := by
  have hnode : h.load p = some (n.patch (f p)) := by rw [hp p, hload]; rfl
  have hlen : i < (n.patch (f p)).next.length := by simpa [Node.patch] using hi
  refine ⟨h.store p { n.patch (f p) with next := (n.patch (f p)).next.set i q }, ?_, ?_⟩
  · simp [setNextAt, hnode, require_of hlen]
  · intro r
    by_cases hr : r = p
    · subst hr
      rw [Arena.load_store_self _ hnode, hload]
      simp only [Option.map_some, Option.some.injEq, Node.patch, Node.mk.injEq, true_and]
      apply List.ext_getElem?
      intro j
      by_cases hj : j = i
      · simp [hj, hi]
      · rw [List.getElem?_set_ne (Ne.symm hj)]
        simp [hj]
    · rw [Arena.load_store_of_ne _ hr, hp r]
      simp [hr]

/-! ## Chains by position -/

/-- A heap holds a chain when each of its towers is where it should be. -/
theorem Chain.append_of {L R : List (Tower Key Value)}
    (hL : ∀ as t bs, L = as ++ t :: bs → h.load t.ptr = some (t.node (bs ++ R)))
    (hR : Chain h R) : Chain h (L ++ R) := by
  induction L with
  | nil => exact hR
  | cons t L ih =>
      refine ⟨hL [] t L rfl, ih ?_⟩
      intro as u bs hsplit
      exact hL (t :: as) u bs (by rw [hsplit]; rfl)

theorem Chain.load_left {L R as bs : List (Tower Key Value)} {t : Tower Key Value}
    (hchain : Chain h (L ++ R)) (hsplit : L = as ++ t :: bs) :
    h.load t.ptr = some (t.node (bs ++ R)) := by
  have hchain' : Chain h (as ++ t :: (bs ++ R)) := by simpa [hsplit] using hchain
  exact hchain'.load

/-- A chain whose nodes did not change is still there. -/
theorem Chain.frame {h' : Arena (Node Key Value)} {ts : List (Tower Key Value)}
    (hchain : Chain h ts) (hsame : ∀ t ∈ ts, h'.load t.ptr = h.load t.ptr) : Chain h' ts := by
  induction ts with
  | nil => trivial
  | cons t ts ih =>
      refine ⟨?_, ih hchain.2 fun u hu => hsame u (by simp [hu])⟩
      rw [hsame t (by simp)]
      exact hchain.1

theorem Node.eq_of_next {n m : Node Key Value} (hkey : n.key = m.key) (hvalue : n.value = m.value)
    (hlen : n.next.length = m.next.length)
    (hnext : ∀ i < m.next.length, n.next[i]? = m.next[i]?) : n = m := by
  rcases n with ⟨nk, nv, nn⟩
  rcases m with ⟨mk, mv, mn⟩
  simp only at hkey hvalue hlen hnext
  subst hkey hvalue
  congr 1
  apply List.ext_getElem?
  intro i
  rcases Nat.lt_or_ge i mn.length with hlt | hge
  · exact hnext i hlt
  · rw [List.getElem?_eq_none (by omega), List.getElem?_eq_none hge]

/-- A patched node of one chain is a node of another when its pointers are. -/
theorem patch_node {t : Tower Key Value} {as bs : List (Tower Key Value)}
    {g : ℕ → Option (Option Ptr)}
    (hnext : ∀ i < t.height, (g i).getD ((firstTall i as).map Tower.ptr) =
      (firstTall i bs).map Tower.ptr) :
    (t.node as).patch g = t.node bs := by
  apply Node.eq_of_next
  · rfl
  · rfl
  · simp [Node.patch]
  · intro i hi
    have hi' : i < t.height := by simpa using hi
    simp [Node.patch, node_next_get hi', hnext i hi']

section Neighbours

variable {t u head : Tower Key Value} {as bs A B : List (Tower Key Value)}

/-- Which tower is the predecessor at level `i` can be told from what follows
it. -/
theorem ptr_eq_lastTall_iff (hnodup : ((head :: A).map Tower.ptr).Nodup)
    (hsplit : head :: A = as ++ t :: bs) {i : ℕ} (hi : i < t.height) :
    t.ptr = (lastTall i head A).ptr ↔ firstTall i bs = none := by
  have hlast : lastTall i head A = lastTall i t bs := by
    cases as with
    | nil =>
        simp only [List.nil_append, List.cons.injEq] at hsplit
        rw [hsplit.1, hsplit.2]
    | cons a as =>
        simp only [List.cons_append, List.cons.injEq] at hsplit
        rw [hsplit.2, lastTall_append_cons hi]
  rw [hlast]
  constructor
  · intro hptr
    by_contra hne
    rcases Option.ne_none_iff_exists'.1 hne with ⟨w, hw⟩
    rcases firstTall_split hw with ⟨hwi, cs, ds, rfl⟩
    rw [lastTall_append_cons hwi] at hptr
    have hmem : lastTall i w ds ∈ cs ++ w :: ds :=
      List.mem_append_right _ (lastTall_mem i w ds)
    rw [hsplit, List.map_append, List.map_cons] at hnodup
    have hnot := (List.nodup_cons.1 (List.nodup_append.1 hnodup).2.1).1
    exact hnot (hptr ▸ List.mem_map_of_mem hmem)
  · intro hnone
    rw [lastTall_of_none hnone]

/-- The predecessor at level `i` points behind the part of the chain it ends. -/
theorem Chain.next_lastTall {ts : List (Tower Key Value)} (hchain : Chain h (head :: (A ++ ts)))
    {i : ℕ} (hi : i < head.height) :
    ∃ n, h.load (lastTall i head A).ptr = some n ∧ i < n.next.length ∧
      n.next[i]? = some ((firstTall i ts).map Tower.ptr) := by
  rcases lastTall_split hi A with ⟨hlt, as, bs, hsplit, hnone⟩
  have hchain' : Chain h (as ++ lastTall i head A :: (bs ++ ts)) := by
    have heq : head :: (A ++ ts) = as ++ lastTall i head A :: (bs ++ ts) := by
      rw [← List.cons_append, hsplit]
      simp
    rwa [heq] at hchain
  refine ⟨_, hchain'.load, by simpa using hlt, ?_⟩
  rw [node_next_get hlt, firstTall_append, hnone, Option.none_or]

/-- No tower behind a part of the chain is a predecessor in it. -/
theorem ptr_ne_lastTall (hnodup : ((head :: (A ++ B)).map Tower.ptr).Nodup) (ht : t ∈ B) (i : ℕ) :
    t.ptr ≠ (lastTall i head A).ptr := by
  rw [← List.cons_append, List.map_append, List.nodup_append] at hnodup
  intro heq
  exact hnodup.2.2 _ (List.mem_map_of_mem (lastTall_mem i head A)) _
    (List.mem_map_of_mem ht) heq.symm

/-- Towers whose pointers are not listed stay where they are. -/
theorem Patched.frame {ts : List (Tower Key Value)} (hp : Patched h₀ h f) (hchain : Chain h₀ ts)
    (hf : ∀ t ∈ ts, ∀ i, f t.ptr i = none) : Chain h ts := by
  refine hchain.frame ?_
  intro t ht
  have hnone : f t.ptr = fun _ => none := by
    funext i
    exact hf t ht i
  rw [hp t.ptr, hnone]
  simp

/-- The part of the chain up to `A` gets a new rest: the predecessors at the
levels below `n` are made to point into it, and at the levels from `n` on it
looks like the old rest. -/
theorem Patched.relink {R R' : List (Tower Key Value)} (hp : Patched h₀ h f) (n : ℕ)
    (hchain : Chain h₀ (head :: (A ++ R))) (hnodup : ((head :: (A ++ R)).map Tower.ptr).Nodup)
    (hf : ∀ t ∈ head :: A, ∀ i, f t.ptr i =
      if i < n ∧ t.ptr = (lastTall i head A).ptr then some ((firstTall i R').map Tower.ptr) else none)
    (hhigh : ∀ i, n ≤ i → firstTall i R' = firstTall i R) (hrest : Chain h R') :
    Chain h (head :: (A ++ R')) := by
  rw [← List.cons_append] at hchain hnodup ⊢
  rw [List.map_append] at hnodup
  refine Chain.append_of ?_ hrest
  intro as t bs hsplit
  have hmem : t ∈ head :: A := by simp [hsplit]
  rw [hp t.ptr, hchain.load_left hsplit, Option.map_some, Option.some.injEq]
  apply patch_node
  intro i hi
  have hiff := ptr_eq_lastTall_iff (List.nodup_append.1 hnodup).1 hsplit hi
  rw [hf t hmem, firstTall_append, firstTall_append]
  by_cases hin : i < n
  · cases hbs : firstTall i bs with
    | none => simp [hin, hiff.2 hbs]
    | some w =>
        -- `t` points to a tower of `A`, so it is no predecessor
        have hnot : ¬ t.ptr = (lastTall i head A).ptr := by simp [hiff, hbs]
        simp [hnot]
  · simp [hin, hhigh i (by omega)]

end Neighbours

/-! ## Linking a tower in -/

section Link

variable {head v : Tower Key Value} {A B : List (Tower Key Value)}

/-- The pointers that differ from the old heap once the levels below `j` are
linked: those of the new tower, and those of its predecessors. -/
def linkPatch (head v : Tower Key Value) (A B : List (Tower Key Value)) (j : ℕ) :
    Ptr → ℕ → Option (Option Ptr) := fun q i =>
  if i < j then
    if q = v.ptr then some ((firstTall i B).map Tower.ptr)
    else if q = (lastTall i head A).ptr then some (some v.ptr)
    else none
  else none

theorem linkLevel_ok {h₁ h : Arena (Node Key Value)} {prev : List (Option Ptr)} {j : ℕ}
    (hchain : Chain h₁ (head :: (A ++ B)))
    (hnew : h₁.load v.ptr = some (newNode v.key v.height v.value))
    (hne : ∀ t ∈ head :: (A ++ B), t.ptr ≠ v.ptr) (hhead : j < head.height) (hj : j < v.height)
    (hprev : prev[j]? = some (some (lastTall j head A).ptr) ∨
      prev[j]? = some none ∧ firstTall j (A ++ B) = none)
    (hp : Patched h₁ h (linkPatch head v A B j)) :
    ∃ h', linkLevel head.ptr v.ptr prev h j = .ok h' ∧
      Patched h₁ h' (linkPatch head v A B (j + 1)) := by
  have hlastMem : lastTall j head A ∈ head :: (A ++ B) := by
    rcases List.mem_cons.1 (lastTall_mem j head A) with hh | hA
    · simp [hh]
    · simp [hA]
  have hlastNe := hne _ hlastMem
  rcases hchain.next_lastTall hhead with ⟨n, hload, hlen, hget⟩
  have hnewLen : j < (newNode v.key v.height v.value).next.length := by
    simpa [newNode] using hj
  -- the two writes of the iteration, whatever `prev[j]` says
  rcases hp.setNextAt_ok hnew hnewLen ((firstTall j B).map Tower.ptr) with ⟨h', hset, hp'⟩
  rcases hp'.setNextAt_ok hload hlen (some v.ptr) with ⟨h'', hset', hp''⟩
  refine ⟨h'', ?_, hp''.congr ?_⟩
  · rcases hprev with hsome | ⟨hnone, hshort⟩
    · have hnext := hp.nextAt_eq hload hget
      simp [linkPatch] at hnext
      simp [linkLevel, hsome, hnext, hset, hset']
    · -- no tower of the list is this tall: the new one follows the head
      rw [firstTall_append, Option.or_eq_none_iff] at hshort
      rw [lastTall_of_none hshort.1] at hset'
      rw [hshort.2, Option.map_none] at hset
      simp [linkLevel, hnone, hset, hset']
  · intro q i
    by_cases hij : i = j
    · subst hij
      by_cases hqv : q = v.ptr
      · simp [linkPatch, hqv, Ne.symm hlastNe]
      · simp [linkPatch, hqv]
    · have hlt : i < j + 1 ↔ i < j := by omega
      simp [linkPatch, hij, hlt]

/-- After all levels of the new tower are linked, the heap holds the chain with
the tower between `A` and `B`. -/
theorem linkPatch_chain {h₁ h : Arena (Node Key Value)}
    (hchain : Chain h₁ (head :: (A ++ B)))
    (hnew : h₁.load v.ptr = some (newNode v.key v.height v.value))
    (hne : ∀ t ∈ head :: (A ++ B), t.ptr ≠ v.ptr)
    (hnodup : ((head :: (A ++ B)).map Tower.ptr).Nodup)
    (hp : Patched h₁ h (linkPatch head v A B v.height)) :
    Chain h (head :: (A ++ v :: B)) := by
  have hlink : ∀ t ∈ head :: (A ++ B), ∀ i, linkPatch head v A B v.height t.ptr i =
      if i < v.height ∧ t.ptr = (lastTall i head A).ptr then some (some v.ptr) else none := by
    intro t ht i
    by_cases hi : i < v.height
    · simp [linkPatch, hi, hne t ht]
    · simp [linkPatch, hi]
  refine hp.relink v.height hchain hnodup ?_ ?_ ⟨?_, ?_⟩
  · -- up to the height the links go to the new tower
    intro t ht i
    have hmem : t ∈ head :: (A ++ B) := by
      rw [← List.cons_append]
      exact List.mem_append_left B ht
    rw [hlink t hmem]
    by_cases hi : i < v.height
    · simp [firstTall, hi]
    · simp [hi]
  · intro i hi
    have hshort : ¬ i < v.height := Nat.not_lt.2 hi
    simp [firstTall, hshort]
  · -- the new tower itself
    rw [hp v.ptr, hnew, Option.map_some, Option.some.injEq]
    apply Node.eq_of_next
    · rfl
    · rfl
    · simp [Node.patch, newNode]
    · intro i hi
      have hi' : i < v.height := by simpa using hi
      rw [node_next_get hi']
      simp [Node.patch, newNode, linkPatch, hi']
  · -- behind it nothing changes
    have hchainB : Chain h₁ B := by
      rw [← List.cons_append] at hchain
      exact hchain.suffix
    refine hp.frame hchainB ?_
    intro t ht i
    rw [hlink t (by simp [ht]), if_neg]
    rintro ⟨-, heq⟩
    exact ptr_ne_lastTall hnodup ht i heq

end Link

/-! ## Unlinking a tower -/

section Unlink

variable {head u : Tower Key Value} {A B : List (Tower Key Value)}

/-- The pointers that differ from the old heap once `u` is unlinked from the
levels below `j`: its predecessors point behind it. -/
def unlinkPatch (head : Tower Key Value) (A B : List (Tower Key Value)) (j : ℕ) :
    Ptr → ℕ → Option (Option Ptr) := fun q i =>
  if i < j ∧ q = (lastTall i head A).ptr then some ((firstTall i B).map Tower.ptr) else none

theorem unlinkLevel_ok {h₁ h : Arena (Node Key Value)} {prev : List (Option Ptr)} {j : ℕ}
    (hchain : Chain h₁ (head :: (A ++ u :: B))) (hhead : j < head.height) (hj : j < u.height)
    (hprev : prev[j]? = some (some (lastTall j head A).ptr))
    (hp : Patched h₁ h (unlinkPatch head A B j)) :
    ∃ h', unlinkLevel prev h j = .ok h' ∧ Patched h₁ h' (unlinkPatch head A B (j + 1)) := by
  rcases hchain.next_lastTall hhead with ⟨n, hload, hlen, hget⟩
  have hfirst : firstTall j (u :: B) = some u := by simp [firstTall, hj]
  rw [hfirst] at hget
  have hnext := hp.nextAt_eq hload hget
  -- the target's own pointers are those of the old heap
  have huload : h₁.load u.ptr = some (u.node B) := by
    rw [← List.cons_append] at hchain
    exact hchain.load
  have hunext := hp.nextAt_eq huload (node_next_get hj)
  rcases hp.setNextAt_ok hload hlen ((firstTall j B).map Tower.ptr) with ⟨h', hset, hp'⟩
  refine ⟨h', ?_, hp'.congr ?_⟩
  · simp [unlinkPatch] at hnext hunext
    simp [unlinkLevel, hprev, hnext, hunext, hset]
  · intro q i
    by_cases hij : i = j
    · simp [unlinkPatch, hij]
    · have hlt : i < j + 1 ↔ i < j := by omega
      simp [unlinkPatch, hij, hlt]

/-- After `u` is unlinked from all its levels, the heap holds the chain without
it. -/
theorem unlinkPatch_chain {h₁ h : Arena (Node Key Value)}
    (hchain : Chain h₁ (head :: (A ++ u :: B)))
    (hnodup : ((head :: (A ++ u :: B)).map Tower.ptr).Nodup)
    (hp : Patched h₁ h (unlinkPatch head A B u.height)) :
    Chain h (head :: (A ++ B)) := by
  have hchainB : Chain h₁ B := by
    rw [← List.cons_append] at hchain
    exact hchain.suffix.2
  refine hp.relink u.height hchain hnodup ?_ ?_ (hp.frame hchainB ?_)
  · intro t _ i
    rfl
  · intro i hi
    have hshort : ¬ i < u.height := Nat.not_lt.2 hi
    simp [firstTall, hshort]
  · intro t ht i
    have hne := ptr_ne_lastTall hnodup (List.mem_cons_of_mem u ht) i
    simp [unlinkPatch, hne]

end Unlink

end SkipList

end Smallkv
