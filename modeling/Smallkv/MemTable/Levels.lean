import Smallkv.MemTable.OrderedMap

/-!
# MemTable.Levels — the levels of a skip list, pointer by pointer

`LinkedAt h i p nodes` follows the pointers of level `i` from `p` and meets
exactly `nodes`, then null. `Layered` is the shape a skip list should have, said
of the heap alone: the level-0 chain is sorted, level `i` threads those of its
nodes that are taller than `i`, and the head points nowhere above `max_level`.
The towers of `Wf` are one way to list the nodes (`Wf.layered`), so every run of
calls leaves a layered list.
-/

namespace Smallkv

open Fallible

namespace SkipList

open Tower

variable {Key Value : Type}

/-- Level `i` leads from `p` through the listed nodes, in this order, to null. -/
def LinkedAt (h : Arena (Node Key Value)) (i : ℕ) :
    Option Ptr → List (Ptr × Node Key Value) → Prop
  | p, [] => p = none
  | p, (q, n) :: rest =>
    p = some q ∧ h.load q = some n ∧ ∃ next, n.next[i]? = some next ∧ LinkedAt h i next rest

/-- The nodes that reach level `i`. -/
def tallerThan (i : ℕ) (nodes : List (Ptr × Node Key Value)) : List (Ptr × Node Key Value) :=
  nodes.filter fun q => i < q.2.getLevel

/-- The heap of `s` is a skip list whose head is `head` and whose nodes, in the
order of level 0, are `nodes`. -/
structure Layered [LT Key] (s : SkipList Key Value) (head : Node Key Value)
    (nodes : List (Ptr × Node Key Value)) : Prop where
  head_load : s.heap.load s.head = some head
  head_height : head.getLevel = kMaxHeight
  bottom : ∃ first, head.next[0]? = some first ∧ LinkedAt s.heap 0 first nodes
  increasing : nodes.Pairwise fun a b => a.2.key < b.2.key
  upper : ∀ i, 1 ≤ i → i < kMaxHeight →
    ∃ first, head.next[i]? = some first ∧ LinkedAt s.heap i first (tallerThan i nodes)
  height_pos : ∀ q ∈ nodes, 1 ≤ q.2.getLevel
  height_le : ∀ q ∈ nodes, q.2.getLevel ≤ s.maxLevel
  level_le : s.maxLevel ≤ kMaxHeight
  null_above : ∀ i, s.maxLevel ≤ i → i < kMaxHeight → head.next[i]? = some none

/-! ## The nodes of a chain of towers -/

/-- Where the towers are and what the heap holds there. -/
def nodesOf : List (Tower Key Value) → List (Ptr × Node Key Value)
  | [] => []
  | t :: ts => (t.ptr, t.node ts) :: nodesOf ts

@[simp] theorem getLevel_node (t : Tower Key Value) (rest : List (Tower Key Value)) :
    (t.node rest).getLevel = t.height :=
  node_next_length t rest

/-- Every node comes from a tower of its key and height. -/
theorem exists_tower_of_mem {ts : List (Tower Key Value)} {q : Ptr × Node Key Value}
    (hq : q ∈ nodesOf ts) : ∃ t ∈ ts, q.2.key = t.key ∧ q.2.getLevel = t.height := by
  induction ts with
  | nil => cases hq
  | cons t ts ih =>
      rcases List.mem_cons.1 hq with rfl | hq
      · exact ⟨t, by simp, by simp⟩
      · rcases ih hq with ⟨u, hu, hkey⟩
        exact ⟨u, by simp [hu], hkey⟩

theorem Sorted.nodesOf_increasing [LinearOrder Key] {ts : List (Tower Key Value)}
    (hs : Sorted ts) : (nodesOf ts).Pairwise fun a b => a.2.key < b.2.key := by
  induction ts with
  | nil => exact List.Pairwise.nil
  | cons t ts ih =>
      rcases List.pairwise_cons.1 hs with ⟨hhead, htail⟩
      refine List.pairwise_cons.2 ⟨?_, ih htail⟩
      intro q hq
      rcases exists_tower_of_mem hq with ⟨u, hu, hkey, -⟩
      rw [hkey]
      exact hhead u hu

/-- Level `i` of a chain threads the towers that are taller than `i`. -/
theorem Chain.linkedAt {h : Arena (Node Key Value)} {ts : List (Tower Key Value)}
    (hchain : Chain h ts) (i : ℕ) :
    LinkedAt h i ((firstTall i ts).map Tower.ptr) (tallerThan i (nodesOf ts)) := by
  induction ts with
  | nil => rfl
  | cons t ts ih =>
      have hrest := ih hchain.2
      by_cases hi : i < t.height
      · -- the tower is on the level, and its own pointer leads on
        have hfirst : firstTall i (t :: ts) = some t := by simp [firstTall, hi]
        have hkeep : tallerThan i (nodesOf (t :: ts)) =
            (t.ptr, t.node ts) :: tallerThan i (nodesOf ts) := by
          simp [nodesOf, tallerThan, hi]
        rw [hfirst, hkeep]
        exact ⟨rfl, hchain.1, _, node_next_get hi, hrest⟩
      · -- the level passes the tower by
        have hfirst : firstTall i (t :: ts) = firstTall i ts := by
          simp [firstTall, hi]
        have hskip : tallerThan i (nodesOf (t :: ts)) = tallerThan i (nodesOf ts) := by
          simp [nodesOf, tallerThan, hi]
        rw [hfirst, hskip]
        exact hrest

theorem tallerThan_zero {nodes : List (Ptr × Node Key Value)}
    (h : ∀ q ∈ nodes, 1 ≤ q.2.getLevel) : tallerThan 0 nodes = nodes := by
  unfold tallerThan
  rw [List.filter_eq_self]
  intro q hq
  have hpos := h q hq
  simp only [decide_eq_true_eq]
  omega

variable [LinearOrder Key] [Inhabited Key] [Inhabited Value] [HasSize Key] [HasSize Value]

/-! ## Every reachable list is layered -/

theorem Wf.layered {s : SkipList Key Value} {ts : List (Tower Key Value)} (hwf : Wf s ts) :
    Layered s (s.headTower.node ts) (nodesOf ts) := by
  have hpos : ∀ q ∈ nodesOf ts, 1 ≤ q.2.getLevel := by
    intro q hq
    rcases exists_tower_of_mem hq with ⟨t, ht, -, hheight⟩
    rw [hheight]
    exact hwf.height_pos t ht
  have hlevel : ∀ i < kMaxHeight, ∃ first, (s.headTower.node ts).next[i]? = some first ∧
      LinkedAt s.heap i first (tallerThan i (nodesOf ts)) := by
    intro i hi
    exact ⟨_, node_next_get hi, hwf.chain.2.linkedAt i⟩
  exact
    { head_load := hwf.chain.1
      head_height := getLevel_node _ _
      bottom := by
        rcases hlevel 0 (by decide) with ⟨first, hfirst, hlinked⟩
        rw [tallerThan_zero hpos] at hlinked
        exact ⟨first, hfirst, hlinked⟩
      increasing := hwf.sorted.nodesOf_increasing
      upper := fun i _ hi => hlevel i hi
      height_pos := hpos
      height_le := by
        intro q hq
        rcases exists_tower_of_mem hq with ⟨t, ht, -, hheight⟩
        rw [hheight]
        exact hwf.height_le t ht
      level_le := hwf.level_le
      null_above := by
        intro i hi hlt
        -- no tower reaches `i`
        have hnone : firstTall i ts = none := by
          rw [firstTall, List.find?_eq_none]
          intro t ht
          have hle := hwf.height_le t ht
          simp only [decide_eq_true_eq]
          omega
        rw [node_next_get hlt, hnone]
        rfl }

/-- After any sequence of calls, whatever towers were drawn, the list is
layered. -/
theorem run_layered (ops : List (Op Key Value)) :
    ∃ s log, run step (new, []) ops = .ok (s, log) ∧ ∃ head nodes, Layered s head nodes := by
  rcases run_spec new_represents [] ops with ⟨s, hrun, ts, hwf, -⟩
  exact ⟨s, _, hrun, _, _, hwf.layered⟩

end SkipList

end Smallkv
