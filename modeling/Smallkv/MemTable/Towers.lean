import Smallkv.Lib.Assoc
import Smallkv.MemTable.SkipList

/-!
# MemTable.Towers — what the heap of a skip list represents

The nodes that can be reached from the head form a chain of *towers*, listed in
the order of level 0. `Chain h ts` says that the heap holds exactly these
nodes: the pointer of a tower at level `i` is the next tower of the chain that
is taller than `i`. With the chain known, every walk is a walk over a list:
`searchLoop_spec`, `findPrevLoop_spec` and `deleteLoop_spec` give the result of
the three loops of the code and that they end.
-/

namespace Smallkv

open Fallible

/-- A reachable node: where it is, what it holds and how many levels it has. -/
structure Tower (Key Value : Type) where
  ptr : Ptr
  key : Key
  value : Value
  height : ℕ

namespace Tower

variable {Key Value : Type}

def entry (t : Tower Key Value) : Key × Value := (t.key, t.value)

/-- The first tower of a chain that is taller than `i`. -/
def firstTall (i : ℕ) (ts : List (Tower Key Value)) : Option (Tower Key Value) :=
  ts.find? fun t => i < t.height

/-- The last tower of the chain `t :: ts` that is taller than `i`; `t` itself
when there is no later one. -/
def lastTall (i : ℕ) (t : Tower Key Value) : List (Tower Key Value) → Tower Key Value
  | [] => t
  | u :: us => lastTall i (if i < u.height then u else t) us

/-- The node of a tower that is followed by `rest`. -/
def node (t : Tower Key Value) (rest : List (Tower Key Value)) : Node Key Value where
  key := t.key
  value := t.value
  next := (List.range t.height).map fun i => (firstTall i rest).map Tower.ptr

@[simp] theorem node_key (t : Tower Key Value) (rest : List (Tower Key Value)) :
    (t.node rest).key = t.key := rfl

@[simp] theorem node_value (t : Tower Key Value) (rest : List (Tower Key Value)) :
    (t.node rest).value = t.value := rfl

@[simp] theorem node_next_length (t : Tower Key Value) (rest : List (Tower Key Value)) :
    (t.node rest).next.length = t.height := by
  simp [node]

theorem node_next_get {t : Tower Key Value} {rest : List (Tower Key Value)} {i : ℕ}
    (hi : i < t.height) :
    (t.node rest).next[i]? = some ((firstTall i rest).map Tower.ptr) := by
  simp [node, hi]

/-! ## First and last tall towers -/

theorem firstTall_append (i : ℕ) (ts us : List (Tower Key Value)) :
    firstTall i (ts ++ us) = (firstTall i ts).or (firstTall i us) := by
  simp [firstTall, List.find?_append]

theorem firstTall_split {i : ℕ} {ts : List (Tower Key Value)} {u : Tower Key Value}
    (h : firstTall i ts = some u) : i < u.height ∧ ∃ as bs, ts = as ++ u :: bs := by
  rcases List.find?_eq_some_iff_append.1 h with ⟨hp, as, bs, hts, -⟩
  exact ⟨by simpa using hp, as, bs, hts⟩

theorem firstTall_mem {i : ℕ} {ts : List (Tower Key Value)} {u : Tower Key Value}
    (h : firstTall i ts = some u) : u ∈ ts :=
  List.mem_of_find?_eq_some h

/-- Every tower reaches level 0, so only an empty chain has none there. -/
theorem firstTall_zero {ts : List (Tower Key Value)} (htall : ∀ t ∈ ts, 1 ≤ t.height) :
    firstTall 0 ts = ts.head? := by
  cases ts with
  | nil => rfl
  | cons t ts =>
      have ht : 0 < t.height := htall t (by simp)
      simp [firstTall, ht]

theorem lastTall_append_cons {i : ℕ} {u : Tower Key Value} (hu : i < u.height)
    (t : Tower Key Value) (as bs : List (Tower Key Value)) :
    lastTall i t (as ++ u :: bs) = lastTall i u bs := by
  induction as generalizing t with
  | nil => simp [lastTall, hu]
  | cons a as ih => simpa [lastTall] using ih _

theorem lastTall_of_none {i : ℕ} {t : Tower Key Value} {ts : List (Tower Key Value)}
    (h : firstTall i ts = none) : lastTall i t ts = t := by
  induction ts with
  | nil => rfl
  | cons u us ih =>
      simp only [firstTall, List.find?_cons] at h
      by_cases hu : i < u.height
      · simp [hu] at h
      · simp only [hu, decide_false] at h
        simpa [lastTall, hu] using ih h

theorem lastTall_mem (i : ℕ) (t : Tower Key Value) (ts : List (Tower Key Value)) :
    lastTall i t ts ∈ t :: ts := by
  induction ts generalizing t with
  | nil => simp [lastTall]
  | cons u us ih =>
      by_cases hu : i < u.height
      · simpa [lastTall, hu] using Or.inr (List.mem_cons.1 (ih u))
      · rcases List.mem_cons.1 (ih t) with h | h
        · simp [lastTall, hu, h]
        · simp [lastTall, hu, h]

/-- The last tall tower splits the chain: it is taller than `i` whenever the
first one is, and no later one is. -/
theorem lastTall_split {i : ℕ} {t : Tower Key Value} (ht : i < t.height)
    (ts : List (Tower Key Value)) :
    i < (lastTall i t ts).height ∧
      ∃ as bs, t :: ts = as ++ lastTall i t ts :: bs ∧ firstTall i bs = none := by
  induction ts generalizing t with
  | nil => exact ⟨ht, [], [], rfl, rfl⟩
  | cons u us ih =>
      by_cases hu : i < u.height
      · rcases ih hu with ⟨hlt, as, bs, heq, hnone⟩
        refine ⟨by simpa [lastTall, hu] using hlt, t :: as, bs, ?_, hnone⟩
        simpa [lastTall, hu] using heq
      · rcases ih ht with ⟨hlt, as, bs, heq, hnone⟩
        have hlast : lastTall i t (u :: us) = lastTall i t us := by simp [lastTall, hu]
        rw [hlast]
        refine ⟨hlt, ?_⟩
        cases as with
        | nil =>
            simp only [List.nil_append, List.cons.injEq] at heq
            rcases heq with ⟨h1, h2⟩
            refine ⟨[], u :: bs, by rw [List.nil_append, ← h2, ← h1], ?_⟩
            simpa [firstTall, List.find?_cons, hu] using hnone
        | cons a as =>
            simp only [List.cons_append, List.cons.injEq] at heq
            rcases heq with ⟨h1, h2⟩
            exact ⟨t :: u :: as, bs, by rw [List.cons_append, List.cons_append, ← h2], hnone⟩

end Tower

namespace SkipList

open Tower Assoc

variable {Key Value : Type}

/-! ## Chains on the heap -/

/-- The heap holds the nodes of the chain, linked as the chain says. -/
def Chain (h : Arena (Node Key Value)) : List (Tower Key Value) → Prop
  | [] => True
  | t :: ts => h.load t.ptr = some (t.node ts) ∧ Chain h ts

theorem Chain.suffix {h : Arena (Node Key Value)} {as bs : List (Tower Key Value)}
    (hchain : Chain h (as ++ bs)) : Chain h bs := by
  induction as with
  | nil => exact hchain
  | cons a as ih => exact ih hchain.2

theorem Chain.load {h : Arena (Node Key Value)} {as bs : List (Tower Key Value)}
    {t : Tower Key Value} (hchain : Chain h (as ++ t :: bs)) :
    h.load t.ptr = some (t.node bs) :=
  hchain.suffix.1

theorem Chain.live {h : Arena (Node Key Value)} {ts : List (Tower Key Value)}
    (hchain : Chain h ts) : ∀ t ∈ ts, ∃ n, h.load t.ptr = some n := by
  intro t ht
  rcases List.append_of_mem ht with ⟨as, bs, rfl⟩
  exact ⟨_, hchain.load⟩

/-- Following a pointer of a chained node leads to the next tower that is tall
enough. -/
theorem Chain.nextAt_eq {h : Arena (Node Key Value)} {ts : List (Tower Key Value)}
    {t : Tower Key Value} (hchain : Chain h (t :: ts)) {i : ℕ} (hi : i < t.height) :
    nextAt h t.ptr i = .ok ((firstTall i ts).map Tower.ptr) := by
  simp [nextAt, hchain.1, node_next_get hi]

/-! ## Sorted chains -/

variable [LinearOrder Key]

def Sorted (ts : List (Tower Key Value)) : Prop :=
  ts.Pairwise fun a b => a.key < b.key

theorem Sorted.nodup_keys {ts : List (Tower Key Value)} (hs : Sorted ts) :
    ((ts.map entry).map Prod.fst).Nodup := by
  apply nodup_keys_of_sorted
  rw [List.pairwise_map]
  exact hs

theorem Sorted.lookup_mem {ts : List (Tower Key Value)} (hs : Sorted ts)
    {u : Tower Key Value} (hu : u ∈ ts) : toMap (ts.map entry) u.key = some u.value := by
  rw [toMap_eq_some_iff hs.nodup_keys]
  exact List.mem_map.2 ⟨u, hu, rfl⟩

theorem lookup_eq_none {ts : List (Tower Key Value)} {key : Key}
    (h : ∀ u ∈ ts, u.key ≠ key) : toMap (ts.map entry) key = none := by
  rw [toMap_eq_none_iff]
  simp only [List.map_map, List.mem_map, not_exists, not_and]
  intro u hu
  exact h u hu

/-- In a sorted chain only the first tower can be at the key that bounds the
chain from below. -/
theorem Sorted.head_lt {ts : List (Tower Key Value)} {w : Tower Key Value} {key : Key}
    (hs : Sorted ts) (hw : ts.head? = some w) (hlt : key < w.key) :
    ∀ u ∈ ts, key < u.key := by
  cases ts with
  | nil => simp at hw
  | cons a ts =>
      cases hw
      intro u hu
      rcases List.mem_cons.1 hu with rfl | hu
      · exact hlt
      · exact hlt.trans ((List.pairwise_cons.1 hs).1 u hu)

/-! ## The three walks

A walk that looks for `key` stands on a tower `t`. Of the towers behind it,
those in `post` are below `key` and those in `rest` are not. Each iteration
moves into `post` or descends one level, so `level + post.length` decreases.
-/

section Walks

variable {h : Arena (Node Key Value)} {key : Key} {t : Tower Key Value}
  {post rest : List (Tower Key Value)}

omit [LinearOrder Key] in
/-- What a walk meets at its next pointer: a tower that is still below the key,
the end of the level, or a tower at or above the key. -/
theorem walk_cases (hchain : Chain h (t :: (post ++ rest))) {level : ℕ}
    (hlevel : level < t.height) :
    (∃ u as bs, post = as ++ u :: bs ∧ level < u.height ∧
      nextAt h t.ptr level = .ok (some u.ptr) ∧ Chain h (u :: (bs ++ rest))) ∨
    (firstTall level post = none ∧ firstTall level rest = none ∧
      nextAt h t.ptr level = .ok none) ∨
    (∃ u ds, firstTall level post = none ∧ firstTall level rest = some u ∧
      nextAt h t.ptr level = .ok (some u.ptr) ∧ h.load u.ptr = some (u.node ds)) := by
  have hnext := hchain.nextAt_eq hlevel
  rw [firstTall_append] at hnext
  cases hpost : firstTall level post with
  | some u =>
      -- the next tower is in `post`, so below the key
      rcases firstTall_split hpost with ⟨hu, as, bs, rfl⟩
      refine Or.inl ⟨u, as, bs, rfl, hu, by simpa [hpost] using hnext, ?_⟩
      have hsplit : Chain h ((t :: as) ++ u :: (bs ++ rest)) := by simpa using hchain
      exact hsplit.suffix
  | none =>
      rw [hpost, Option.none_or] at hnext
      cases hrest : firstTall level rest with
      | none => exact Or.inr (Or.inl ⟨rfl, rfl, by simpa [hrest] using hnext⟩)
      | some u =>
          rcases firstTall_split hrest with ⟨-, cs, ds, hsplit⟩
          refine Or.inr (Or.inr ⟨u, ds, rfl, rfl, by simpa [hrest] using hnext, ?_⟩)
          have hchain' : Chain h ((t :: (post ++ cs)) ++ u :: ds) := by
            simpa [hsplit] using hchain
          exact hchain'.load

/-! ### `Get` and `Contains` -/

theorem searchLoop_null {cur : Ptr} {fuel level : ℕ} (hnext : nextAt h cur level = .ok none) :
    searchLoop h key (fuel + 1) cur level =
      if level = 0 then .ok none else searchLoop h key fuel cur (level - 1) := by
  rw [searchLoop, hnext]
  rfl

theorem searchLoop_node {cur next : Ptr} {node : Node Key Value} {fuel level : ℕ}
    (hnext : nextAt h cur level = .ok (some next)) (hload : h.load next = some node) :
    searchLoop h key (fuel + 1) cur level =
      if node.key = key then .ok (some node)
      else if node.key < key then searchLoop h key fuel next level
      else if level = 0 then .ok none
      else searchLoop h key fuel cur (level - 1) := by
  rw [searchLoop, hnext, ok_bind]
  simp only [hload]
  rfl

/-- `Get` and `Contains` find the value that the chain holds for the key. -/
theorem searchLoop_spec (hchain : Chain h (t :: (post ++ rest)))
    (hbelow : ∀ u ∈ post, u.key < key) (habove : ∀ u ∈ rest, key ≤ u.key)
    (hsorted : Sorted rest) (htall : ∀ u ∈ rest, 1 ≤ u.height)
    {level fuel : ℕ} (hlevel : level < t.height) (hfuel : level + post.length < fuel) :
    ∃ found, searchLoop h key fuel t.ptr level = .ok found ∧
      found.map Node.value = toMap (rest.map entry) key := by
  induction fuel generalizing t post level with
  | zero => omega
  | succ fuel ih =>
      -- at level 0 no tower is overlooked
      have hbottom : level = 0 → firstTall level rest = rest.head? := by
        rintro rfl
        exact firstTall_zero htall
      have hdescend : level ≠ 0 → ∃ found,
          searchLoop h key fuel t.ptr (level - 1) = .ok found ∧
            found.map Node.value = toMap (rest.map entry) key :=
        fun h0 => ih hchain hbelow (by omega) (by omega)
      rcases walk_cases hchain hlevel with
        ⟨u, as, bs, rfl, hu, hnext, hchain'⟩ | ⟨-, hrest, hnext⟩ | ⟨u, ds, -, hrest, hnext, hload⟩
      · -- below the key: move on
        have hlt : u.key < key := hbelow u (by simp)
        rw [searchLoop_node hnext hchain'.1, node_key, if_neg (ne_of_lt hlt), if_pos hlt]
        simp only [List.length_append, List.length_cons] at hfuel
        exact ih hchain' (fun w hw => hbelow w (by simp [hw])) hu (by omega)
      · -- the end of the level
        rw [searchLoop_null hnext]
        split
        · have hnil : rest.head? = none := by rw [← hbottom ‹_›, hrest]
          exact ⟨none, rfl, by simp [List.head?_eq_none_iff.1 hnil]⟩
        · exact hdescend ‹_›
      · rw [searchLoop_node hnext hload, node_key]
        have humem := firstTall_mem hrest
        rcases (habove u humem).eq_or_lt with heq | hlt
        · -- at the key
          rw [if_pos heq.symm, heq, hsorted.lookup_mem humem]
          exact ⟨_, rfl, rfl⟩
        · -- above the key: at the bottom, everything of `rest` is
          rw [if_neg (ne_of_gt hlt), if_neg (not_lt_of_gt hlt)]
          split
          · have hhead : rest.head? = some u := by rw [← hbottom ‹_›, hrest]
            exact ⟨none, rfl, (lookup_eq_none fun w hw =>
              ne_of_gt (hsorted.head_lt hhead hlt w hw)).symm⟩
          · exact hdescend ‹_›

/-! ### Recording predecessors

`FindPrevNode` and `Delete` fill a vector level by level, from the top down. -/

omit [LinearOrder Key] in
theorem setPrev_ok {prev : List (Option Ptr)} {level : ℕ} (hlen : level < prev.length)
    (cur : Ptr) : setPrev prev level cur = .ok (prev.set level (some cur)) := by
  simp [setPrev, require_of hlen]

/-- A walk from `t` at `level` turns `prev` into `prev'`: the levels that `P`
asks for get the last tower of `t :: post` that is tall enough, and the levels
above are left alone. -/
structure Records (t : Tower Key Value) (post : List (Tower Key Value)) (level : ℕ)
    (P : ℕ → Prop) (prev prev' : List (Option Ptr)) : Prop where
  length : prev'.length = prev.length
  low : ∀ i ≤ level, P i → prev'[i]? = some (some (lastTall i t post).ptr)
  high : ∀ i, level < i → prev'[i]? = prev[i]?

section Recording

variable {u : Tower Key Value} {as bs : List (Tower Key Value)} {level : ℕ} {P : ℕ → Prop}
  {prev prev' : List (Option Ptr)}

omit [LinearOrder Key] in
/-- Where no tower of `post` is tall enough, it is `t` that is recorded. -/
theorem Records.get_set (hpost : firstTall level post = none) (hlen : level < prev.length) :
    (prev.set level (some t.ptr))[level]? = some (some (lastTall level t post).ptr) := by
  rw [lastTall_of_none hpost, List.getElem?_set_self hlen]

omit [LinearOrder Key] in
/-- The walk ends at the bottom level. -/
theorem Records.bottom (hpost : firstTall level post = none) (hlen : level < prev.length)
    (h0 : level = 0) : Records t post level P prev (prev.set level (some t.ptr)) where
  length := by simp
  low := by
    intro i hi _
    have hieq : i = level := by omega
    rw [hieq, Records.get_set hpost hlen]
  high := by
    intro i hi
    exact List.getElem?_set_ne (by omega)

omit [LinearOrder Key] in
/-- The walk records `t` and descends. -/
theorem Records.descend (hpost : firstTall level post = none) (hlen : level < prev.length)
    (h0 : level ≠ 0) (h : Records t post (level - 1) P (prev.set level (some t.ptr)) prev') :
    Records t post level P prev prev' where
  length := by
    rw [h.length, List.length_set]
  low := by
    intro i hi hP
    rcases Nat.lt_or_ge i level with hlt | hge
    · exact h.low i (by omega) hP
    · have hieq : i = level := by omega
      rw [hieq, h.high level (by omega), Records.get_set hpost hlen]
  high := by
    intro i hi
    rw [h.high i (by omega), List.getElem?_set_ne (by omega)]

omit [LinearOrder Key] in
/-- The walk descends from a level that nobody asks for. -/
theorem Records.skip (h0 : level ≠ 0) (hP : ¬ P level) (h : Records t post (level - 1) P prev prev') :
    Records t post level P prev prev' where
  length := h.length
  low := by
    intro i hi hPi
    have hne : i ≠ level := by
      rintro rfl
      exact hP hPi
    exact h.low i (by omega) hPi
  high := by
    intro i hi
    exact h.high i (by omega)

omit [LinearOrder Key] in
/-- The walk moves on to a tower of `post`. -/
theorem Records.move (hu : level < u.height) (h : Records u bs level P prev prev') :
    Records t (as ++ u :: bs) level P prev prev' where
  length := h.length
  low := by
    intro i hi hP
    rw [lastTall_append_cons (by omega)]
    exact h.low i hi hP
  high := h.high

end Recording

/-! ### `FindPrevNode` -/

theorem findPrevLoop_null {cur : Ptr} {fuel level : ℕ} {prev : List (Option Ptr)}
    (hnext : nextAt h cur level = .ok none) (hlen : level < prev.length) :
    findPrevLoop h key (fuel + 1) cur level prev =
      if level > 0 then findPrevLoop h key fuel cur (level - 1) (prev.set level (some cur))
      else .ok (prev.set level (some cur)) := by
  rw [findPrevLoop, hnext, ok_bind]
  simp only [setPrev_ok hlen]
  rfl

theorem findPrevLoop_node {cur next : Ptr} {node : Node Key Value} {fuel level : ℕ}
    {prev : List (Option Ptr)} (hnext : nextAt h cur level = .ok (some next))
    (hload : h.load next = some node) (hlen : level < prev.length) :
    findPrevLoop h key (fuel + 1) cur level prev =
      if node.key ≥ key then
        if level > 0 then findPrevLoop h key fuel cur (level - 1) (prev.set level (some cur))
        else .ok (prev.set level (some cur))
      else findPrevLoop h key fuel next level prev := by
  rw [findPrevLoop, hnext, ok_bind]
  simp only [hload, setPrev_ok hlen]
  rfl

/-- `FindPrevNode` records a predecessor at every level it walks. -/
theorem findPrevLoop_spec (hchain : Chain h (t :: (post ++ rest)))
    (hbelow : ∀ u ∈ post, u.key < key) (habove : ∀ u ∈ rest, key ≤ u.key)
    {level fuel : ℕ} {prev : List (Option Ptr)} (hlevel : level < t.height)
    (hfuel : level + post.length < fuel) (hlen : level < prev.length) :
    ∃ prev', findPrevLoop h key fuel t.ptr level prev = .ok prev' ∧
      Records t post level (fun _ => True) prev prev' := by
  induction fuel generalizing t post level prev with
  | zero => omega
  | succ fuel ih =>
      -- at the end of the level: record `t`, then descend or return
      have hrecord : firstTall level post = none →
          ∃ prev', (if level > 0 then
              findPrevLoop h key fuel t.ptr (level - 1) (prev.set level (some t.ptr))
            else .ok (prev.set level (some t.ptr))) = .ok prev' ∧
            Records t post level (fun _ => True) prev prev' := by
        intro hpost
        split
        · have hlen' : level - 1 < (prev.set level (some t.ptr)).length := by
            rw [List.length_set]
            omega
          rcases ih hchain hbelow (show level - 1 < t.height by omega) (by omega) hlen' with
            ⟨prev', hrun, hrec⟩
          exact ⟨prev', hrun, hrec.descend hpost hlen (by omega)⟩
        · exact ⟨_, rfl, .bottom hpost hlen (by omega)⟩
      rcases walk_cases hchain hlevel with
        ⟨u, as, bs, rfl, hu, hnext, hchain'⟩ | ⟨hpost, -, hnext⟩ | ⟨u, ds, hpost, hrest, hnext, hload⟩
      · -- below the key: move on
        have hlt : ¬ u.key ≥ key := not_le_of_gt (hbelow u (by simp))
        rw [findPrevLoop_node hnext hchain'.1 hlen, node_key, if_neg hlt]
        simp only [List.length_append, List.length_cons] at hfuel
        rcases ih hchain' (fun w hw => hbelow w (by simp [hw])) hu (by omega) hlen with
          ⟨prev', hrun, hrec⟩
        exact ⟨prev', hrun, hrec.move hu⟩
      · rw [findPrevLoop_null hnext hlen]
        exact hrecord hpost
      · rw [findPrevLoop_node hnext hload hlen, node_key,
          if_pos (habove u (firstTall_mem hrest))]
        exact hrecord hpost

/-! ### `Delete` -/

theorem deleteLoop_null {cur : Ptr} {fuel level : ℕ} {prev : List (Option Ptr)} {target : ℤ}
    (hnext : nextAt h cur level = .ok none) :
    deleteLoop h key (fuel + 1) cur level prev target =
      if level = 0 then .ok (prev, target)
      else deleteLoop h key fuel cur (level - 1) prev target := by
  rw [deleteLoop, hnext]
  rfl

theorem deleteLoop_node {cur next : Ptr} {node : Node Key Value} {fuel level : ℕ}
    {prev : List (Option Ptr)} {target : ℤ} (hnext : nextAt h cur level = .ok (some next))
    (hload : h.load next = some node) (hlen : level < prev.length) :
    deleteLoop h key (fuel + 1) cur level prev target =
      if node.key = key then
        if level = 0 then .ok (prev.set level (some cur), (node.getLevel : ℤ))
        else deleteLoop h key fuel cur (level - 1) (prev.set level (some cur)) node.getLevel
      else if node.key < key then deleteLoop h key fuel next level prev target
      else if level = 0 then .ok (prev.set level (some cur), target)
      else deleteLoop h key fuel cur (level - 1) (prev.set level (some cur)) target := by
  rw [deleteLoop, hnext, ok_bind]
  simp only [hload, setPrev_ok hlen]
  rfl

/-- When the first tower of `rest` holds the key, `Delete` learns its height and
records its predecessor at every level the tower reaches. -/
theorem deleteLoop_spec {u : Tower Key Value} {us : List (Tower Key Value)}
    (hrest : rest = u :: us) (hkey : u.key = key) (hu : 1 ≤ u.height)
    (hchain : Chain h (t :: (post ++ rest))) (hbelow : ∀ w ∈ post, w.key < key)
    (habove : ∀ w ∈ rest, key ≤ w.key)
    {level fuel : ℕ} {prev : List (Option Ptr)} (target : ℤ) (hlevel : level < t.height)
    (hfuel : level + post.length < fuel) (hlen : level < prev.length) :
    ∃ prev', deleteLoop h key fuel t.ptr level prev target = .ok (prev', (u.height : ℤ)) ∧
      Records t post level (· < u.height) prev prev' := by
  induction fuel generalizing t post level prev target with
  | zero => omega
  | succ fuel ih =>
      -- at level 0 the walk meets the target
      have hbottom : level = 0 → firstTall level rest = some u := by
        rintro rfl
        rw [hrest]
        simp [firstTall, Nat.lt_of_lt_of_le Nat.zero_lt_one hu]
      -- record `t` and descend, whatever height is known by then
      have hrecord : firstTall level post = none → level ≠ 0 → ∀ target,
          ∃ prev', deleteLoop h key fuel t.ptr (level - 1) (prev.set level (some t.ptr)) target =
              .ok (prev', (u.height : ℤ)) ∧ Records t post level (· < u.height) prev prev' := by
        intro hpost h0 target
        have hlen' : level - 1 < (prev.set level (some t.ptr)).length := by
          rw [List.length_set]
          omega
        rcases ih hchain hbelow target (show level - 1 < t.height by omega) (by omega) hlen' with
          ⟨prev', hrun, hrec⟩
        exact ⟨prev', hrun, hrec.descend hpost hlen h0⟩
      rcases walk_cases hchain hlevel with
        ⟨w, as, bs, rfl, hw, hnext, hchain'⟩ | ⟨hpost, hnone, hnext⟩ |
        ⟨w, ds, hpost, hsome, hnext, hload⟩
      · -- below the key: move on
        have hlt : w.key < key := hbelow w (by simp)
        rw [deleteLoop_node hnext hchain'.1 hlen, node_key, if_neg (ne_of_lt hlt), if_pos hlt]
        simp only [List.length_append, List.length_cons] at hfuel
        rcases ih hchain' (fun v hv => hbelow v (by simp [hv])) target hw (by omega) hlen with
          ⟨prev', hrun, hrec⟩
        exact ⟨prev', hrun, hrec.move hw⟩
      · -- the end of a level above the target
        have h0 : level ≠ 0 := by
          intro h0
          simp [hbottom h0] at hnone
        have hshort : ¬ level < u.height := by
          intro hpos
          simp [hrest, firstTall, hpos] at hnone
        rw [deleteLoop_null hnext, if_neg h0]
        rcases ih hchain hbelow target (show level - 1 < t.height by omega) (by omega)
          (show level - 1 < prev.length by omega) with ⟨prev', hrun, hrec⟩
        exact ⟨prev', hrun, hrec.skip h0 hshort⟩
      · rw [deleteLoop_node hnext hload hlen, node_key]
        have hge := habove w (firstTall_mem hsome)
        by_cases h0 : level = 0
        · -- the bottom level ends on the target
          have hwu : w = u := Option.some.inj (hsome.symm.trans (hbottom h0))
          rw [if_pos (by rw [hwu, hkey]), if_pos h0, hwu]
          exact ⟨prev.set level (some t.ptr), by simp [Node.getLevel], .bottom hpost hlen h0⟩
        · -- above it the target may be met or not
          simp only [if_neg h0, if_neg (not_lt_of_ge hge)]
          split
          · exact hrecord hpost h0 _
          · exact hrecord hpost h0 _

end Walks

end SkipList

end Smallkv
