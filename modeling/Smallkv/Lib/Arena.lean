import Mathlib

/-!
# Arena — a heap of cells addressed by pointers

`alloc` hands out the next unused address, `store` overwrites a live cell and
`free` ends its life; a freed or never allocated address loads nothing. Every
read or write of a data structure kept on the heap is one of the rules below,
so its proofs never look at the list of cells.
-/

/-- An address. -/
abbrev Ptr := Nat

structure Arena (α : Type u) where
  cells : List (Option α)

namespace Arena

variable {α : Type u}

def empty : Arena α := ⟨[]⟩

/-- The address the next `alloc` returns. -/
def fresh (h : Arena α) : Ptr := h.cells.length

def load (h : Arena α) (p : Ptr) : Option α := (h.cells[p]?).join

def alloc (h : Arena α) (a : α) : Arena α := ⟨h.cells ++ [some a]⟩

def store (h : Arena α) (p : Ptr) (a : α) : Arena α := ⟨h.cells.set p (some a)⟩

def free (h : Arena α) (p : Ptr) : Arena α := ⟨h.cells.set p none⟩

/-- A live address is below the next one to be handed out. -/
theorem lt_fresh {h : Arena α} {p : Ptr} {a : α} (hp : h.load p = some a) : p < h.fresh := by
  by_contra hlt
  have hnone : h.cells[p]? = none := List.getElem?_eq_none (Nat.le_of_not_lt hlt)
  simp [load, hnone] at hp

theorem ne_fresh {h : Arena α} {p : Ptr} {a : α} (hp : h.load p = some a) : p ≠ h.fresh :=
  Nat.ne_of_lt (lt_fresh hp)

@[simp] theorem load_fresh (h : Arena α) : h.load h.fresh = none := by
  simp [load, fresh]

/-! ## Loads after an update -/

@[simp] theorem load_alloc_fresh (h : Arena α) (a : α) :
    (h.alloc a).load h.fresh = some a := by
  simp [load, alloc, fresh]

theorem load_alloc_of_ne {h : Arena α} {p : Ptr} (a : α) (hne : p ≠ h.fresh) :
    (h.alloc a).load p = h.load p := by
  rcases Nat.lt_or_gt_of_ne hne with hlt | hgt
  · have hlt' : p < h.cells.length := hlt
    simp [load, alloc, List.getElem?_append_left hlt']
  · have hle : h.cells.length + 1 ≤ p := hgt
    have h1 : (h.cells ++ [some a])[p]? = none :=
      List.getElem?_eq_none (by simpa using hle)
    have h2 : h.cells[p]? = none := List.getElem?_eq_none (by omega)
    simp [load, alloc, h1, h2]

theorem load_store_self {h : Arena α} {p : Ptr} {b : α} (a : α) (hp : h.load p = some b) :
    (h.store p a).load p = some a := by
  have hlt : p < h.cells.length := lt_fresh hp
  simp [load, store, hlt]

theorem load_store_of_ne {h : Arena α} {p q : Ptr} (a : α) (hne : q ≠ p) :
    (h.store p a).load q = h.load q := by
  simp [load, store, List.getElem?_set_ne hne.symm]

theorem load_free_of_ne {h : Arena α} {p q : Ptr} (hne : q ≠ p) :
    (h.free p).load q = h.load q := by
  simp [load, free, List.getElem?_set_ne hne.symm]

theorem load_free_self (h : Arena α) (p : Ptr) : (h.free p).load p = none := by
  unfold load free
  by_cases hp : p < h.cells.length
  · simp [hp]
  · have hnone : (h.cells.set p none)[p]? = none := List.getElem?_eq_none (by simpa using hp)
    rw [hnone, Option.join_none]

/-- What is stored before a cell is freed makes no difference. -/
theorem free_store (h : Arena α) (p : Ptr) (a : α) : (h.store p a).free p = h.free p := by
  simp [store, free]

@[simp] theorem fresh_alloc (h : Arena α) (a : α) : (h.alloc a).fresh = h.fresh + 1 := by
  simp [fresh, alloc]

@[simp] theorem fresh_store (h : Arena α) (p : Ptr) (a : α) :
    (h.store p a).fresh = h.fresh := by
  simp [fresh, store]

@[simp] theorem fresh_free (h : Arena α) (p : Ptr) : (h.free p).fresh = h.fresh := by
  simp [fresh, free]

/-- A duplicate-free list of live addresses is no longer than the heap. -/
theorem length_le_fresh {h : Arena α} {ps : List Ptr} (hnodup : ps.Nodup)
    (hlive : ∀ p ∈ ps, ∃ a, h.load p = some a) : ps.length ≤ h.fresh := by
  have hsub : ps ⊆ List.range h.fresh := by
    intro p hp
    rcases hlive p hp with ⟨a, ha⟩
    exact List.mem_range.2 (lt_fresh ha)
  simpa using (List.Nodup.subperm hnodup hsub).length_le

/-! ## Taking stock -/

/-- The live cells of a heap, each once, as address and content. -/
structure Inventory (h : Arena α) (cs : List (Ptr × α)) : Prop where
  nodup : (cs.map Prod.fst).Nodup
  mem_iff : ∀ p a, (p, a) ∈ cs ↔ h.load p = some a

theorem inventory_empty : Inventory (empty : Arena α) [] where
  nodup := List.nodup_nil
  mem_iff := by
    intro p a
    simp [load, empty]

namespace Inventory

variable {h : Arena α} {cs ds : List (Ptr × α)} {p : Ptr} {b : α}

/-- The order of an inventory does not matter. -/
theorem perm (hcs : Inventory h cs) (hperm : cs.Perm ds) : Inventory h ds where
  nodup := (hperm.map _).nodup_iff.1 hcs.nodup
  mem_iff := by
    intro q a
    rw [← hperm.mem_iff, hcs.mem_iff]

theorem alloc (hcs : Inventory h cs) (a : α) : Inventory (h.alloc a) ((h.fresh, a) :: cs) where
  nodup := by
    refine List.nodup_cons.2 ⟨?_, hcs.nodup⟩
    intro hmem
    rcases List.mem_map.1 hmem with ⟨⟨q, c⟩, hq, heq⟩
    exact ne_fresh ((hcs.mem_iff q c).1 hq) heq
  mem_iff := by
    intro q c
    rw [List.mem_cons, hcs.mem_iff]
    by_cases hq : q = h.fresh
    · subst hq
      simp [eq_comm]
    · simp [hq, load_alloc_of_ne]

/-- No other entry has the address of the first one. -/
theorem ne_head (hcs : Inventory h ((p, b) :: cs)) {q : Ptr} {a : α} (hq : (q, a) ∈ cs) :
    q ≠ p := by
  rintro rfl
  exact (List.nodup_cons.1 hcs.nodup).1 (List.mem_map.2 ⟨(q, a), hq, rfl⟩)

theorem load_head (hcs : Inventory h ((p, b) :: cs)) : h.load p = some b :=
  (hcs.mem_iff p b).1 List.mem_cons_self

theorem mem_tail_iff (hcs : Inventory h ((p, b) :: cs)) {q : Ptr} (hq : q ≠ p) (a : α) :
    (q, a) ∈ cs ↔ h.load q = some a := by
  rw [← hcs.mem_iff, List.mem_cons]
  simp [hq]

theorem store (hcs : Inventory h ((p, b) :: cs)) (a : α) :
    Inventory (h.store p a) ((p, a) :: cs) where
  nodup := hcs.nodup
  mem_iff := by
    intro q c
    rw [List.mem_cons]
    by_cases hq : q = p
    · subst hq
      have hnot : (q, c) ∉ cs := fun hmem => hcs.ne_head hmem rfl
      simp [load_store_self a hcs.load_head, hnot, eq_comm]
    · rw [load_store_of_ne a hq, hcs.mem_tail_iff hq]
      simp [hq]

theorem free (hcs : Inventory h ((p, b) :: cs)) : Inventory (h.free p) cs where
  nodup := (List.nodup_cons.1 hcs.nodup).2
  mem_iff := by
    intro q c
    by_cases hq : q = p
    · subst hq
      have hnot : (q, c) ∉ cs := fun hmem => hcs.ne_head hmem rfl
      simp [load_free_self, hnot]
    · rw [load_free_of_ne hq, hcs.mem_tail_iff hq]

end Inventory

end Arena
