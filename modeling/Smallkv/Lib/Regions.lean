import Mathlib

/-!
# Regions — pieces of memory with one owner each

Memory comes in chunks that have nothing in common; an address is a place in a
chunk, and a region is a run of bytes of one chunk. `Partition` says of a list of
regions that each lies inside its chunk and that no two overlap: it does not
depend on the order, and regions can be split, dropped and made from new chunks.
`Linked` says of a list of addresses that it is what one meets by following
`next` pointers up to the null pointer.
-/

namespace Regions

/-- A place in a chunk. -/
structure Addr where
  chunk : ℕ
  offset : ℤ
deriving DecidableEq

/-- Pointer arithmetic stays in the chunk. -/
def Addr.shift (a : Addr) (n : ℤ) : Addr := ⟨a.chunk, a.offset + n⟩

theorem Addr.shift_zero (a : Addr) : a.shift 0 = a := by
  simp [shift]

theorem Addr.shift_shift (a : Addr) (m n : ℤ) : (a.shift m).shift n = a.shift (m + n) := by
  simp [shift, add_assoc]

/-- The bytes `[start, start + size)`. -/
structure Region where
  start : Addr
  size : ℤ

namespace Region

def Disjoint (r s : Region) : Prop :=
  r.start.chunk = s.start.chunk →
    r.start.offset + r.size ≤ s.start.offset ∨ s.start.offset + s.size ≤ r.start.offset

/-- The region lies inside a chunk; `sizes` are the sizes of the chunks. -/
def Inside (sizes : List ℤ) (r : Region) : Prop :=
  0 ≤ r.size ∧ 0 ≤ r.start.offset ∧
    ∃ n, sizes[r.start.chunk]? = some n ∧ r.start.offset + r.size ≤ n

/-- Every byte of `r` is one of `s`. -/
def Within (r s : Region) : Prop :=
  r.start.chunk = s.start.chunk ∧ s.start.offset ≤ r.start.offset ∧
    r.start.offset + r.size ≤ s.start.offset + s.size

theorem Disjoint.symm {r s : Region} (h : r.Disjoint s) : s.Disjoint r :=
  fun heq => (h heq.symm).symm

instance : Std.Symm Disjoint := ⟨fun _ _ h => h.symm⟩

/-- Regions with bytes in them do not start at the same place. -/
theorem Disjoint.start_ne {r s : Region} (h : r.Disjoint s) (hr : 0 < r.size) (hs : 0 < s.size) :
    r.start ≠ s.start := by
  intro heq
  have hboth := h (congrArg Addr.chunk heq)
  rw [heq] at hboth
  omega

end Region

/-! ## Partitions -/

/-- Every region is inside its chunk, and no two overlap. -/
structure Partition (sizes : List ℤ) (rs : List Region) : Prop where
  inside : ∀ r ∈ rs, r.Inside sizes
  apart : rs.Pairwise Region.Disjoint

namespace Partition

variable {sizes : List ℤ} {rs rs' : List Region} {r : Region}

theorem perm (h : Partition sizes rs) (hperm : rs.Perm rs') : Partition sizes rs' where
  inside := fun r hr => h.inside r (hperm.mem_iff.2 hr)
  apart := (hperm.pairwise_iff Region.Disjoint.symm).1 h.apart

theorem head_disjoint (h : Partition sizes (r :: rs)) : ∀ s ∈ rs, r.Disjoint s :=
  (List.pairwise_cons.1 h.apart).1

theorem disjoint_of_ne (h : Partition sizes rs) {s : Region} (hr : r ∈ rs) (hs : s ∈ rs)
    (hne : r ≠ s) : r.Disjoint s :=
  h.apart.forall hr hs hne

theorem tail (h : Partition sizes (r :: rs)) : Partition sizes rs where
  inside := fun s hs => h.inside s (List.mem_cons_of_mem r hs)
  apart := (List.pairwise_cons.1 h.apart).2

/-- A region may be cut in two. -/
theorem split {a : Addr} {m n : ℤ} (h : Partition sizes (⟨a, m + n⟩ :: rs)) (hm : 0 ≤ m)
    (hn : 0 ≤ n) : Partition sizes (⟨a, m⟩ :: ⟨a.shift m, n⟩ :: rs) := by
  have hdisjoint := h.head_disjoint
  rcases h.inside _ List.mem_cons_self with ⟨-, hstart, size, hsize, hend⟩
  simp only at hstart hsize hend
  constructor
  · intro s hs
    rcases List.mem_cons.1 hs with rfl | hs
    · exact ⟨hm, hstart, size, hsize, by simp only; omega⟩
    rcases List.mem_cons.1 hs with rfl | hs
    · exact ⟨hn, by simp only [Addr.shift]; omega, size, hsize, by simp only [Addr.shift]; omega⟩
    · exact h.inside s (List.mem_cons_of_mem _ hs)
  · rw [List.pairwise_cons, List.pairwise_cons]
    refine ⟨?_, ?_, h.tail.apart⟩
    · intro s hs
      rcases List.mem_cons.1 hs with rfl | hs
      · -- the two parts touch
        intro _
        exact Or.inl (le_refl _)
      · intro heq
        have hboth := hdisjoint s hs heq
        simp only at hboth ⊢
        omega
    · intro s hs heq
      have hboth := hdisjoint s hs heq
      simp only [Addr.shift] at hboth ⊢
      omega

/-- A new chunk is disjoint from what there is. -/
theorem grow (h : Partition sizes rs) {n : ℤ} (hn : 0 ≤ n) :
    Partition (sizes ++ [n]) (⟨⟨sizes.length, 0⟩, n⟩ :: rs) := by
  constructor
  · intro s hs
    rcases List.mem_cons.1 hs with rfl | hs
    · exact ⟨hn, le_refl 0, n, by simp, by simp⟩
    · rcases h.inside s hs with ⟨hsize, hstart, m, hm, hend⟩
      refine ⟨hsize, hstart, m, ?_, hend⟩
      rw [List.getElem?_append_left (List.getElem?_eq_some_iff.1 hm).1]
      exact hm
  · rw [List.pairwise_cons]
    refine ⟨?_, h.apart⟩
    intro s hs heq
    rcases h.inside s hs with ⟨-, -, m, hm, -⟩
    have hlt := (List.getElem?_eq_some_iff.1 hm).1
    rw [← heq] at hlt
    exact absurd hlt (lt_irrefl _)

/-- A region that is a whole chunk is given back with the chunk, of which nothing is
left; regions without a byte must be elsewhere. -/
theorem release (h : Partition sizes (r :: rs)) (hstart : r.start.offset = 0)
    (hwhole : sizes[r.start.chunk]? = some r.size)
    (hempty : ∀ s ∈ rs, s.size = 0 → s.start.chunk ≠ r.start.chunk) :
    Partition (sizes.set r.start.chunk 0) rs where
  inside := by
    intro s hs
    rcases h.tail.inside s hs with ⟨hpos, hoffset, m, hm, hend⟩
    refine ⟨hpos, hoffset, m, ?_, hend⟩
    rw [List.getElem?_set_ne]
    · exact hm
    · -- in the chunk there would only be room for an empty region
      intro heq
      rw [← heq, hwhole] at hm
      cases hm
      have hdisjoint := h.head_disjoint s hs heq
      exact hempty s hs (by omega) heq.symm
  apart := h.tail.apart

end Partition

/-! ## Sizes -/

/-- The bytes of regions that do not overlap. -/
def total (rs : List Region) : ℤ := (rs.map Region.size).sum

@[simp] theorem total_nil : total [] = 0 := rfl

@[simp] theorem total_cons (r : Region) (rs : List Region) : total (r :: rs) = r.size + total rs := by
  simp [total]

theorem total_perm {rs rs' : List Region} (h : rs.Perm rs') : total rs = total rs' :=
  (h.map Region.size).sum_eq

/-! ## Families of lists -/

/-- When one list of a family gets more elements, so does the whole. -/
theorem flatMap_perm_extend {ι : Type u} {α : Type v} {is : List ι} (his : is.Nodup) {i : ι}
    (hi : i ∈ is) {f g : ι → List α} {e : List α} (hne : ∀ j, j ≠ i → g j = f j)
    (hself : (g i).Perm (e ++ f i)) : (is.flatMap g).Perm (e ++ is.flatMap f) := by
  classical
  have hperm := List.perm_cons_erase hi
  have hrest : (is.erase i).flatMap g = (is.erase i).flatMap f := by
    apply List.flatMap_congr
    intro j hj
    exact hne j (his.mem_erase_iff.1 hj).1
  have hcons : ∀ h : ι → List α, (is.flatMap h).Perm (h i ++ (is.erase i).flatMap h) :=
    fun h => hperm.flatMap_right h
  have hf := (hcons f).symm.append_left e
  rw [← List.append_assoc] at hf
  refine (hcons g).trans ?_
  rw [hrest]
  exact (hself.append_right _).trans hf

/-! ## Linked lists -/

/-- Following `next` from `head` one meets the addresses of the list, in order,
and then the null pointer. -/
def Linked (next : Addr → Option Addr) : Option Addr → List Addr → Prop
  | head, [] => head = none
  | head, a :: as => head = some a ∧ Linked next (next a) as

namespace Linked

variable {next next' : Addr → Option Addr} {head : Option Addr} {a b : Addr} {as bs : List Addr}

/-- The list depends on the pointers in it only. -/
theorem congr (h : Linked next head as) (heq : ∀ a ∈ as, next' a = next a) :
    Linked next' head as := by
  induction as generalizing head with
  | nil => exact h
  | cons a as ih =>
      refine ⟨h.1, ?_⟩
      rw [heq a List.mem_cons_self]
      exact ih h.2 fun b hb => heq b (List.mem_cons_of_mem a hb)

/-- A new first element that points to the old one. -/
theorem push (h : Linked next head as) (ha : a ∉ as) :
    Linked (Function.update next a head) (some a) (a :: as) := by
  refine ⟨rfl, ?_⟩
  rw [Function.update_self]
  apply h.congr
  intro b hb
  rw [Function.update_of_ne]
  rintro rfl
  exact ha hb

theorem pop (h : Linked next (some a) as) : ∃ as', as = a :: as' ∧ Linked next (next a) as' := by
  cases as with
  | nil => cases h
  | cons b as =>
      cases h.1
      exact ⟨as, rfl, h.2⟩

/-- The pointers determine the list. -/
theorem unique (h : Linked next head as) (h' : Linked next head bs) : as = bs := by
  induction as generalizing head bs with
  | nil =>
      have hnil : head = none := h
      subst hnil
      cases bs with
      | nil => rfl
      | cons b bs => cases h'.1
  | cons a as ih =>
      rcases h with ⟨rfl, h⟩
      rcases h'.pop with ⟨bs', rfl, htail⟩
      rw [ih h htail]

/-- From any place of the list on. -/
theorem suffix (h : Linked next head (as ++ bs)) : ∃ head', Linked next head' bs := by
  induction as generalizing head with
  | nil => exact ⟨head, h⟩
  | cons a as ih => exact ih h.2

/-- A list that ends is not a cycle. -/
theorem nodup (h : Linked next head as) : as.Nodup := by
  induction as generalizing head with
  | nil => exact List.nodup_nil
  | cons a as ih =>
      rw [List.nodup_cons]
      refine ⟨?_, ih h.2⟩
      intro ha
      -- the list behind the second `a` would be the one behind the first
      rcases List.append_of_mem ha with ⟨pre, post, rfl⟩
      rcases suffix (show Linked next _ (a :: pre ++ a :: post) from h) with ⟨head', hagain⟩
      have heq := h.2.unique hagain.2
      have hlen := congrArg List.length heq
      simp at hlen
      omega

/-- Two addresses that point to each other are on no such list. -/
theorem not_of_cycle (hab : next a = some b) (hba : next b = some a) : ¬ Linked next (some a) as := by
  intro h
  rcases h.pop with ⟨as', rfl, hb⟩
  rw [hab] at hb
  rcases hb.pop with ⟨as'', rfl, ha⟩
  rw [hba] at ha
  have heq := h.unique ha
  have hlen := congrArg List.length heq
  simp only [List.length_cons] at hlen
  omega

end Linked

end Regions
