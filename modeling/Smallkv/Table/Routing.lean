import Smallkv.Lib.Separators
import Smallkv.Table.Plan

/-!
# Table.Routing — which block the index sends a key to

The separator of a block is to be above the keys of the block and not above
those of the next one. `add` takes it between the last two keys of the block, so
it is not above the last one, except where `find_shortest_key` puts a space
behind the key before it and the last key sorts below that. `finish_sst` counts
the last byte of the last key up, which goes wrong at the last byte there is.
-/

namespace Smallkv

open Fallible Separators

/-! ## `find_shortest_key` -/

theorem bumpLast_cons {x : Byte} {key s : Bytes} (hne : key ≠ [])
    (hrun : SSTableBuilder.bumpLast (x :: key) = .ok s) :
    ∃ tail, SSTableBuilder.bumpLast key = .ok tail ∧ s = x :: tail := by
  rcases List.exists_cons_of_ne_nil hne with ⟨y, key, rfl⟩
  rcases bind_eq_ok.1 hrun with ⟨last, hlast, hrun⟩
  cases hrun
  rw [List.getLast?_cons_cons] at hlast
  refine ⟨(y :: key).dropLast ++ [last + 1], ?_, ?_⟩
  · rw [SSTableBuilder.bumpLast, hlast]
    rfl
  · rw [List.dropLast_cons_cons, List.cons_append]

theorem byte_lt_succ_iff (b : Byte) : b < b + 1 ↔ b ≠ 255 := by
  have hb := b.toNat_lt
  rw [UInt8.lt_iff_toNat_lt, UInt8.toNat_add, Ne, ← UInt8.toNat_inj]
  simp only [UInt8.reduceToNat]
  omega

theorem byte_succ_le {x y : Byte} (h : x < y) : x + 1 ≤ y := by
  have hy := y.toNat_lt
  rw [UInt8.lt_iff_toNat_lt] at h
  rw [UInt8.le_iff_toNat_le, UInt8.toNat_add]
  simp only [UInt8.reduceToNat]
  omega

/-- Counting the last byte up makes a key greater, unless the byte starts over. -/
theorem lt_bumpLast_iff {key s : Bytes} (hrun : SSTableBuilder.bumpLast key = .ok s) :
    key < s ↔ key.getLast? ≠ some 255 := by
  induction key generalizing s with
  | nil => cases hrun
  | cons x key ih =>
      by_cases hne : key = []
      · subst hne
        cases hrun
        show [x] < [x + 1] ↔ _
        rw [List.cons_lt_cons_iff]
        simp [byte_lt_succ_iff]
      · rcases bumpLast_cons hne hrun with ⟨tail, htail, rfl⟩
        rcases List.exists_cons_of_ne_nil hne with ⟨y, key, rfl⟩
        rw [List.cons_lt_cons_iff, List.getLast?_cons_cons, ← ih htail]
        simp

/-- Keys agree at least where they have a prefix in common. -/
theorem sharedLen_le_equalPositions (a b : Bytes) :
    sharedLen a b ≤ SSTableBuilder.equalPositions a b := by
  induction a generalizing b with
  | nil => exact Nat.zero_le _
  | cons x a ih =>
      cases b with
      | nil => exact Nat.zero_le _
      | cons y b =>
          unfold SSTableBuilder.equalPositions at ih ⊢
          by_cases hxy : x = y
          · simpa [sharedLen, hxy] using ih b
          · simp [sharedLen, hxy]

theorem equalPositions_eq_length {a b : Bytes} (h : a <+: b) :
    SSTableBuilder.equalPositions a b = a.length := by
  rcases h with ⟨c, rfl⟩
  unfold SSTableBuilder.equalPositions
  induction a with
  | nil => rfl
  | cons x a ih => simpa using ih

/-- Cut behind the first difference or later, the smaller key can be counted up
without getting above the greater one. -/
theorem bumpLast_take_le {pre key s : Bytes} {n : ℕ} (hlt : pre < key) (hpre : ¬ pre <+: key)
    (hn : sharedLen pre key ≤ n) (hrun : SSTableBuilder.bumpLast (pre.take (n + 1)) = .ok s) :
    s ≤ key := by
  induction pre generalizing key s n with
  | nil => exact absurd (List.nil_prefix) hpre
  | cons x pre ih =>
      cases key with
      | nil => exact absurd hlt (List.not_lt_nil _)
      | cons y key =>
          rw [List.take_succ_cons] at hrun
          rcases List.cons_lt_cons_iff.1 hlt with hxy | ⟨rfl, htail⟩
          · -- the first byte makes the difference
            by_cases hnil : pre.take n = []
            · rw [hnil] at hrun
              cases hrun
              show [x + 1] ≤ y :: key
              rcases (byte_succ_le hxy).lt_or_eq with hless | rfl
              · exact (List.cons_lt_cons_iff.2 (Or.inl hless)).le
              · exact List.cons_le_cons _ (not_lt.1 (List.not_lt_nil _))
            · rcases bumpLast_cons hnil hrun with ⟨tail, -, rfl⟩
              exact (List.cons_lt_cons_iff.2 (Or.inl hxy)).le
          · -- a shared byte
            have hpre' : ¬ pre <+: key := fun h => hpre (List.cons_prefix_cons.2 ⟨rfl, h⟩)
            have hshared : sharedLen (x :: pre) (x :: key) = sharedLen pre key + 1 := by
              simp [sharedLen]
            rw [hshared] at hn
            obtain ⟨m, rfl⟩ : ∃ m, n = m + 1 := ⟨n - 1, by omega⟩
            have hne : pre.take (m + 1) ≠ [] := by
              intro hnil
              rcases List.take_eq_nil_iff.1 hnil with h | h
              · omega
              · exact hpre' (h ▸ List.nil_prefix)
            rcases bumpLast_cons hne hrun with ⟨tail, hbump, rfl⟩
            exact List.cons_le_cons _ (ih htail hpre' (by omega) hbump)

/-- A key between another one and the same with one byte more starts with it. -/
theorem prefix_of_lt_append {pre key : Bytes} {c : Byte} (hlt : pre < key)
    (hkey : key < pre ++ [c]) : pre <+: key := by
  induction pre generalizing key with
  | nil => exact List.nil_prefix
  | cons x pre ih =>
      cases key with
      | nil => exact absurd hlt (List.not_lt_nil _)
      | cons y key =>
          rw [List.cons_append] at hkey
          rcases List.cons_lt_cons_iff.1 hlt with hxy | ⟨rfl, htail⟩
          · rcases List.cons_lt_cons_iff.1 hkey with hyx | ⟨rfl, -⟩
            · exact absurd (hxy.trans hyx) (lt_irrefl _)
            · exact absurd hxy (lt_irrefl _)
          · rcases List.cons_lt_cons_iff.1 hkey with hyx | ⟨-, hkey⟩
            · exact absurd hyx (lt_irrefl _)
            · exact List.cons_prefix_cons.2 ⟨rfl, ih htail hkey⟩

/-- The separator of two keys is above the second one exactly if that is below the
first one with a space behind it, and is then this. -/
theorem findShortestKey_cases {pre key s : Bytes}
    (hrun : SSTableBuilder.findShortestKey pre key = .ok s) :
    pre ≠ [] ∧ pre < key ∧
      (s = pre ++ ascii " " ∨ s ≤ key ∧ ¬ key < pre ++ ascii " ") := by
  rcases bind_eq_ok.1 hrun with ⟨_, hpreNe, hrun⟩
  rcases bind_eq_ok.1 hrun with ⟨_, -, hrun⟩
  rcases bind_eq_ok.1 hrun with ⟨_, hless, hrun⟩
  have hlt : pre < key := require_eq_ok.1 hless
  refine ⟨require_eq_ok.1 hpreNe, hlt, ?_⟩
  simp only at hrun
  split at hrun
  · cases hrun
    exact Or.inl rfl
  · rename_i hcount
    have hpre : ¬ pre <+: key := fun h => hcount (equalPositions_eq_length h).symm
    right
    constructor
    · exact bumpLast_take_le hlt hpre (sharedLen_le_equalPositions pre key) hrun
    · intro hkey
      exact hpre (prefix_of_lt_append hlt hkey)

theorem lt_findShortestKey_iff {pre key s : Bytes}
    (hrun : SSTableBuilder.findShortestKey pre key = .ok s) :
    key < s ↔ key < pre ++ ascii " " := by
  rcases findShortestKey_cases hrun with ⟨-, -, rfl | ⟨hle, hnot⟩⟩
  · exact Iff.rfl
  · exact iff_of_false (not_lt.2 hle) hnot

/-! ## Where blocks end -/

/-- A pair goes into the block, which is empty again if it was over the limit. -/
def fill (current : List (Bytes × Bytes)) (entry : Bytes × Bytes) : List (Bytes × Bytes) :=
  if kMaxDataBlockSize < (blockOf (current ++ [entry])).size then [] else current ++ [entry]

/-- The pairs of the block that is being filled behind these. -/
def openBlock (entries : List (Bytes × Bytes)) : List (Bytes × Bytes) := entries.foldl fill []

/-- Behind these pairs, this one fills its block up. -/
def CutsAt (entries : List (Bytes × Bytes)) (entry : Bytes × Bytes) : Prop :=
  kMaxDataBlockSize < (blockOf (openBlock entries ++ [entry])).size

instance (entries : List (Bytes × Bytes)) (entry : Bytes × Bytes) :
    Decidable (CutsAt entries entry) :=
  inferInstanceAs (Decidable (_ < _))

theorem openBlock_concat (entries : List (Bytes × Bytes)) (entry : Bytes × Bytes) :
    openBlock (entries ++ [entry]) =
      if CutsAt entries entry then [] else openBlock entries ++ [entry] := by
  rw [openBlock, List.foldl_append, List.foldl_cons, List.foldl_nil]
  rfl

theorem openBlock_concat_eq_nil {entries : List (Bytes × Bytes)} {entry : Bytes × Bytes} :
    openBlock (entries ++ [entry]) = [] ↔ CutsAt entries entry := by
  rw [openBlock_concat]
  split
  · rename_i hcut
    simp [hcut]
  · rename_i hcut
    simp [hcut]

theorem openBlock_two_eq_nil {es : List (Bytes × Bytes)} {p e : Bytes × Bytes} :
    openBlock (es ++ [p, e]) = [] ↔ CutsAt (es ++ [p]) e := by
  rw [show es ++ [p, e] = es ++ [p] ++ [e] by simp, openBlock_concat_eq_nil]

/-- Wherever a block ends, its last key sorts below the key before it with a space
behind it, and the next key does not. -/
def SpaceSeparated (entries : List (Bytes × Bytes)) : Prop :=
  ∀ es p e, es ++ [p, e] <+: entries → CutsAt (es ++ [p]) e →
    e.1 < p.1 ++ ascii " " ∧ ∀ n, es ++ [p, e, n] <+: entries → p.1 ++ ascii " " ≤ n.1

/-- The condition for one pair more: the last two pairs may end a block in front of
it, and it may end a block itself. -/
theorem spaceSeparated_concat (entries : List (Bytes × Bytes)) (entry : Bytes × Bytes) :
    SpaceSeparated (entries ++ [entry]) ↔ SpaceSeparated entries ∧
      (∀ es p e, entries = es ++ [p, e] → CutsAt (es ++ [p]) e → p.1 ++ ascii " " ≤ entry.1) ∧
      ∀ es p, entries = es ++ [p] → CutsAt entries entry → entry.1 < p.1 ++ ascii " " := by
  constructor
  · intro h
    refine ⟨?_, ?_, ?_⟩
    · intro es p e hpre hcut
      have he := h es p e (hpre.trans (List.prefix_append _ _)) hcut
      exact ⟨he.1, fun n hn => he.2 n (hn.trans (List.prefix_append _ _))⟩
    · rintro es p e rfl hcut
      refine (h es p e (List.prefix_append _ _) hcut).2 entry ?_
      simp
    · rintro es p rfl hcut
      refine (h es p entry ?_ hcut).1
      simp
  · rintro ⟨h, hbehind, hat⟩ es p e hpre hcut
    rcases List.prefix_concat_iff.1 hpre with heq | hpre
    · -- the new pair ends the block
      have hsplit : es ++ [p] = entries ∧ e = entry := by
        rw [show es ++ [p, e] = es ++ [p] ++ [e] by simp] at heq
        rcases List.append_inj' heq rfl with ⟨hes, he⟩
        exact ⟨hes, by simpa using he⟩
      rcases hsplit with ⟨rfl, rfl⟩
      refine ⟨hat es p rfl hcut, ?_⟩
      intro n hn
      have hlen := hn.length_le
      simp at hlen
    · refine ⟨(h es p e hpre hcut).1, ?_⟩
      intro n hn
      rcases List.prefix_concat_iff.1 hn with heq | hn
      · -- the new pair is behind it
        have hsplit : es ++ [p, e] = entries ∧ n = entry := by
          rw [show es ++ [p, e, n] = es ++ [p, e] ++ [n] by simp] at heq
          rcases List.append_inj' heq rfl with ⟨hes, hn⟩
          exact ⟨hes, by simpa using hn⟩
        rcases hsplit with ⟨rfl, rfl⟩
        exact hbehind es p e rfl hcut
      · exact (h es p e hpre hcut).2 n hn

/-! ## Separators of a plan -/

namespace Plan

/-- The keys, block by block. -/
def keys (p : Plan) : List (List Bytes) := p.blocks.map (List.map Prod.fst)

def separators (p : Plan) : List Bytes := p.index.map IndexBlock.shortestKey

/-- What a plan is like that was made of these pairs. When no block is open the
last separator is that of the last two keys. -/
structure Shape (entries : List (Bytes × Bytes)) (p : Plan) : Prop where
  perBlock : p.index.length = p.blocks.length
  nonempty : ∀ block ∈ p.blocks, block ≠ []
  added : p.blocks.flatten ++ p.current = entries
  current : p.current = openBlock entries
  preKey : p.preKey = [] ∨ ∃ es q, entries = es ++ [q] ∧ p.preKey = q.1
  lastCut : p.current = [] → p.index = [] ∨ ∃ es q e s, entries = es ++ [q, e] ∧
    p.separators.getLast? = some s ∧ SSTableBuilder.findShortestKey q.1 e.1 = .ok s

theorem start_shape : Shape [] start where
  perBlock := rfl
  nonempty := by simp [start]
  added := rfl
  current := rfl
  preKey := Or.inl rfl
  lastCut := fun _ => Or.inl rfl

theorem add_shape {entries : List (Bytes × Bytes)} {p p' : Plan} {entry : Bytes × Bytes}
    (h : Shape entries p) (hrun : p.add entry = .ok p') : Shape (entries ++ [entry]) p' := by
  rcases add_cases hrun with ⟨hbelow, rfl⟩ | ⟨s, hover, hshortest, rfl⟩
  · have hopen : ¬ CutsAt entries entry := by
      rw [CutsAt, ← h.current]
      exact not_lt.2 hbelow
    constructor
    case perBlock => exact h.perBlock
    case nonempty => exact h.nonempty
    case added => rw [← h.added, List.append_assoc]
    case current => rw [openBlock_concat, if_neg hopen, ← h.current]
    case preKey => exact Or.inr ⟨entries, entry, rfl, rfl⟩
    case lastCut => simp
  · have hcut : CutsAt entries entry := by
      rw [CutsAt, ← h.current]
      exact hover
    constructor
    case perBlock => simp [h.perBlock]
    case nonempty =>
      intro block hblock
      rcases List.mem_append.1 hblock with hblock | hblock
      · exact h.nonempty block hblock
      · rw [List.mem_singleton.1 hblock]
        simp
    case added =>
      rw [← h.added]
      simp
    case current => rw [openBlock_concat, if_pos hcut]
    case preKey => exact Or.inr ⟨entries, entry, rfl, rfl⟩
    case lastCut =>
      intro _
      right
      -- the first pair cannot end a block
      rcases h.preKey with hnone | ⟨es, q, rfl, hq⟩
      · exact absurd hnone (findShortestKey_cases hshortest).1
      · refine ⟨es, q, entry, s, by simp, by simp [separators], ?_⟩
        rw [← hq, hshortest]

/-- The blocks that are put away are routed, and the open one is behind the last
separator. -/
def RoutesOpen (p : Plan) : Prop :=
  Routes p.keys p.separators ∧ ∀ last ∈ p.separators.getLast?, ∀ e ∈ p.current, last ≤ e.1

theorem Shape.length_separators {entries : List (Bytes × Bytes)} {p : Plan} (h : Shape entries p) :
    p.separators.length = p.keys.length := by
  rw [separators, keys, List.length_map, List.length_map, h.perBlock]

/-- The pairs of the open block are among those that came in. -/
theorem Shape.mem_of_current {entries : List (Bytes × Bytes)} {p : Plan} (h : Shape entries p)
    {e : Bytes × Bytes} (he : e ∈ p.current) : e ∈ entries := by
  rw [← h.added]
  exact List.mem_append_right _ he

/-- A block that is put away has to be between its separator and the last one. -/
theorem routesOpen_putAway {entries : List (Bytes × Bytes)} {p p' : Plan} (h : Shape entries p)
    {pairs : List (Bytes × Bytes)} {e : IndexBlock} (hblocks : p'.blocks = p.blocks ++ [pairs])
    (hindex : p'.index = p.index ++ [e]) (hcurrent : p'.current = []) :
    p'.RoutesOpen ↔ Routes p.keys p.separators ∧
      (∀ last ∈ p.separators.getLast?, ∀ q ∈ pairs, last ≤ q.1) ∧
      ∀ q ∈ pairs, q.1 < e.shortestKey := by
  have hkeys : p'.keys = p.keys ++ [pairs.map Prod.fst] := by
    rw [keys, hblocks, List.map_append, ← keys, List.map_singleton]
  have hseps : p'.separators = p.separators ++ [e.shortestKey] := by
    rw [separators, hindex, List.map_append, ← separators, List.map_singleton]
  rw [RoutesOpen, hkeys, hseps, hcurrent, routes_concat h.length_separators]
  simp only [List.not_mem_nil, false_imp_iff, implies_true, and_true, List.forall_mem_map]

/-- In order, the last pair is the one to be below the separator. -/
theorem forall_lt_concat {pairs : List (Bytes × Bytes)} {entry : Bytes × Bytes} {s : Bytes}
    (hbehind : ∀ e ∈ pairs, e.1 < entry.1) :
    (∀ e ∈ pairs ++ [entry], e.1 < s) ↔ entry.1 < s := by
  constructor
  · intro hall
    exact hall entry (by simp)
  · intro hlt e he
    rcases List.mem_append.1 he with he | he
    · exact (hbehind e he).trans hlt
    · rwa [List.mem_singleton.1 he]

/-- A pair keeps this if the last separator is not above it, and if the separator
is that it ends the block with, where it does. -/
theorem routesOpen_add {entries : List (Bytes × Bytes)} {p p' : Plan} {entry : Bytes × Bytes}
    (h : Shape entries p) (hbehind : ∀ e ∈ entries, e.1 < entry.1)
    (hrun : p.add entry = .ok p') :
    p'.RoutesOpen ↔ p.RoutesOpen ∧ (∀ last ∈ p.separators.getLast?, last ≤ entry.1) ∧
      ∀ es q, entries = es ++ [q] → CutsAt entries entry → entry.1 < q.1 ++ ascii " " := by
  have hmem : (∀ last ∈ p.separators.getLast?, ∀ e ∈ p.current ++ [entry], last ≤ e.1) ↔
      (∀ last ∈ p.separators.getLast?, ∀ e ∈ p.current, last ≤ e.1) ∧
        ∀ last ∈ p.separators.getLast?, last ≤ entry.1 := by
    simp only [List.forall_mem_append, List.forall_mem_singleton, ← forall_and]
  rcases add_cases hrun with ⟨hbelow, rfl⟩ | ⟨s, hover, hshortest, rfl⟩
  · -- the block stays open
    have hopen : ¬ CutsAt entries entry := by
      rw [CutsAt, ← h.current]
      exact not_lt.2 hbelow
    have hnever : ∀ es q, entries = es ++ [q] → CutsAt entries entry →
        entry.1 < q.1 ++ ascii " " := fun _ _ _ hcut => absurd hcut hopen
    unfold RoutesOpen
    rw [and_assoc, and_iff_left hnever, ← hmem]
    rfl
  · -- the block is put away
    rcases h.preKey with hnone | ⟨es, q, rfl, hq⟩
    · exact absurd hnone (findShortestKey_cases hshortest).1
    · rw [hq] at hshortest
      have hcut : CutsAt (es ++ [q]) entry := by
        rw [CutsAt, ← h.current]
        exact hover
      have habove : (∀ e ∈ p.current ++ [entry], e.1 < s) ↔
          ∀ es' q', es ++ [q] = es' ++ [q'] → CutsAt (es ++ [q]) entry →
            entry.1 < q'.1 ++ ascii " " := by
        rw [forall_lt_concat (fun e he => hbehind e (h.mem_of_current he)),
          lt_findShortestKey_iff hshortest]
        constructor
        · intro hlt es' q' heq _
          obtain rfl : q = q' := by simpa using (List.append_inj' heq rfl).2
          exact hlt
        · intro hall
          exact hall es q rfl hcut
      rw [routesOpen_putAway h rfl rfl rfl, hmem, habove, RoutesOpen]
      tauto

/-- Behind pairs that are routed, the last separator is not above the next one
exactly if it is not where a block ends. -/
theorem lastSeparator_le_iff {entries : List (Bytes × Bytes)} {p : Plan} {entry : Bytes × Bytes}
    (h : Shape entries p) (hbehind : ∀ e ∈ entries, e.1 < entry.1) (hroutes : p.RoutesOpen)
    (hspace : SpaceSeparated entries) :
    (∀ last ∈ p.separators.getLast?, last ≤ entry.1) ↔
      ∀ es q e, entries = es ++ [q, e] → CutsAt (es ++ [q]) e → q.1 ++ ascii " " ≤ entry.1 := by
  by_cases hnil : p.current = []
  · -- a block has just ended
    rcases h.lastCut hnil with hindex | ⟨es, q, e, s, rfl, hlast, hshortest⟩
    · have hblocks : p.blocks = [] := by
        rw [← List.length_eq_zero_iff, ← h.perBlock, hindex]
        rfl
      have hentries : entries = [] := by
        rw [← h.added, hblocks, hnil]
        rfl
      refine iff_of_true ?_ ?_
      · simp [separators, hindex]
      · intro es q e heq
        simp [hentries] at heq
    · have hcut : CutsAt (es ++ [q]) e := openBlock_two_eq_nil.1 (h.current ▸ hnil)
      have hs : s = q.1 ++ ascii " " := by
        rcases findShortestKey_cases hshortest with ⟨-, -, hs | ⟨-, hnot⟩⟩
        · exact hs
        · exact absurd (hspace es q e (List.prefix_refl _) hcut).1 hnot
      rw [hlast, hs]
      constructor
      · intro hle es' q' e' heq _
        have hq : q = q' ∧ e = e' := by simpa using (List.append_inj' heq rfl).2
        rw [← hq.1]
        exact hle _ rfl
      · intro hall last hlast'
        obtain rfl : q.1 ++ ascii " " = last := by simpa using hlast'
        exact hall es q e rfl hcut
  · -- the last separator is not above what is in the open block, and that is below the pair
    have hle : ∀ last ∈ p.separators.getLast?, last ≤ entry.1 := by
      intro last hlast
      rcases List.exists_mem_of_ne_nil _ hnil with ⟨e, he⟩
      exact (hroutes.2 last hlast e he).trans (hbehind e (h.mem_of_current he)).le
    refine iff_of_true hle ?_
    rintro es q e rfl hcut
    have hopen : p.current = [] := by
      rw [h.current, openBlock_two_eq_nil]
      exact hcut
    exact absurd hopen hnil

/-- So a run of additions is routed exactly if every block ends where a space
separates. -/
theorem run_routes {entries : List (Bytes × Bytes)} {p : Plan}
    (hsorted : entries.Pairwise fun a b => a.1 < b.1) (hrun : run add start entries = .ok p) :
    Shape entries p ∧ (p.RoutesOpen ↔ SpaceSeparated entries) := by
  refine run_history_invariant (fun entries p => (entries.Pairwise fun a b => a.1 < b.1) →
    Shape entries p ∧ (p.RoutesOpen ↔ SpaceSeparated entries)) ?_ ?_ hrun hsorted
  · intro _
    refine ⟨start_shape, iff_of_true ⟨routes_nil, ?_⟩ ?_⟩
    · intro last hlast
      simp [separators, start] at hlast
    · intro es q e hpre
      have hlen := hpre.length_le
      simp at hlen
  · intro entries p entry p' hinv hadd hsorted'
    rcases List.pairwise_append.1 hsorted' with ⟨hsorted, -, hlast⟩
    rcases hinv hsorted with ⟨hshape, hroutes⟩
    have hbehind : ∀ e ∈ entries, e.1 < entry.1 := fun e he => hlast e he entry (by simp)
    refine ⟨add_shape hshape hadd, ?_⟩
    rw [routesOpen_add hshape hbehind hadd, spaceSeparated_concat]
    constructor
    · rintro ⟨hopen, hle, hat⟩
      have hspace := hroutes.1 hopen
      exact ⟨hspace, (lastSeparator_le_iff hshape hbehind hopen hspace).1 hle, hat⟩
    · rintro ⟨hspace, hbehindCut, hat⟩
      have hopen := hroutes.2 hspace
      exact ⟨hopen, (lastSeparator_le_iff hshape hbehind hopen hspace).2 hbehindCut, hat⟩

end Plan

/-! ## The last block -/

/-- Unless the last pair ends a block, its key does not end in the greatest byte. -/
def LastKeyCountsUp (entries : List (Bytes × Bytes)) : Prop :=
  openBlock entries ≠ [] → ∀ e ∈ entries.getLast?, e.1.getLast? ≠ some 255

namespace Plan

theorem finish_perBlock {entries : List (Bytes × Bytes)} {p p' : Plan} (h : Shape entries p)
    (hrun : p.finish = .ok p') :
    p'.index.length = p'.blocks.length ∧ ∀ block ∈ p'.blocks, block ≠ [] := by
  rcases finish_cases hrun with ⟨-, rfl⟩ | ⟨key, hne, -, rfl⟩
  · exact ⟨h.perBlock, h.nonempty⟩
  · constructor
    · simp [h.perBlock]
    · intro block hblock
      rcases List.mem_append.1 hblock with hblock | hblock
      · exact h.nonempty block hblock
      · rwa [List.mem_singleton.1 hblock]

theorem routesOpen_finish {entries : List (Bytes × Bytes)} {p p' : Plan} (h : Shape entries p)
    (hsorted : entries.Pairwise fun a b => a.1 < b.1) (hrun : p.finish = .ok p') :
    Routes p'.keys p'.separators ↔ p.RoutesOpen ∧ LastKeyCountsUp entries := by
  rcases finish_cases hrun with ⟨hnil, rfl⟩ | ⟨key, hne, hbump, hp'⟩
  · -- nothing is left
    have hcounts : LastKeyCountsUp entries := by
      intro hopen
      rw [← h.current] at hopen
      exact absurd hnil hopen
    rw [and_iff_left hcounts, RoutesOpen, hnil]
    simp
  · rcases h.preKey with hnone | ⟨es, q, rfl, hq⟩
    · rw [hnone] at hbump
      cases hbump
    · -- the last pair is in the last block
      rw [hq] at hbump
      obtain ⟨init, hinit⟩ : ∃ init, p.current = init ++ [q] := by
        rcases List.eq_nil_or_concat p.current with hnil | ⟨init, q', hcurrent⟩
        · exact absurd hnil hne
        · have hadded := h.added
          rw [hcurrent, List.concat_eq_append, ← List.append_assoc] at hadded
          obtain rfl : q' = q := by simpa using (List.append_inj' hadded rfl).2
          exact ⟨init, by rw [hcurrent, List.concat_eq_append]⟩
      have hbehind : ∀ e ∈ init, e.1 < q.1 := by
        have hcurrent := (List.pairwise_append.1 (h.added ▸ hsorted)).2.1
        rw [hinit] at hcurrent
        exact fun e he => (List.pairwise_append.1 hcurrent).2.2 e he q (by simp)
      have hcounts : LastKeyCountsUp (es ++ [q]) ↔ ∀ e ∈ p.current, e.1 < key := by
        rw [hinit, forall_lt_concat hbehind, lt_bumpLast_iff hbump, LastKeyCountsUp, ← h.current]
        simp [hne]
      have hcurrent : p'.current = [] := by rw [hp']
      have hput := routesOpen_putAway h (show p'.blocks = p.blocks ++ [p.current] by rw [hp'])
        (show p'.index = p.index ++ [⟨key, ⟨blockSize p.current, p.offset⟩⟩] by rw [hp']) hcurrent
      rw [hcounts, RoutesOpen, and_assoc, ← hput, RoutesOpen, hcurrent]
      simp

end Plan

/-! ## The index -/

/-- The index leads to every key: its entries are above the keys of their blocks and
not above those of the next ones, so the search ends at the block of the key, and
at none behind the last entry. -/
structure RoutesKeys (p : Plan) : Prop where
  routes : Routes p.keys p.separators
  found : ∀ t : SSTParser, t.indexBlocks = p.index → ∀ (i : ℕ) block, p.blocks[i]? = some block →
    ∀ entry ∈ block, t.findKeyDBIndex entry.1 = some i
  absent : ∀ t : SSTParser, t.indexBlocks = p.index → ∀ key,
    (∀ last ∈ p.index.getLast?, last.shortestKey ≤ key) → t.findKeyDBIndex key = none

/-- `FindKeyDBIndex` looks at nothing but the separators. -/
theorem findKeyDBIndex_eq {t : SSTParser} {p : Plan} (hindex : t.indexBlocks = p.index)
    (key : Bytes) : t.findKeyDBIndex key = p.separators.findIdx? fun sep => key < sep := by
  rw [SSTParser.findKeyDBIndex, hindex, Plan.separators, List.findIdx?_map]
  rfl

theorem routesKeys_iff {p : Plan} (hlen : p.index.length = p.blocks.length)
    (hne : ∀ block ∈ p.blocks, block ≠ []) : RoutesKeys p ↔ Routes p.keys p.separators := by
  have hkeysLen : p.separators.length = p.keys.length := by
    rw [Plan.separators, Plan.keys, List.length_map, List.length_map, hlen]
  have hkeysNe : ∀ part ∈ p.keys, part ≠ [] := by
    intro part hpart
    rcases List.mem_map.1 hpart with ⟨block, hblock, rfl⟩
    simpa using hne block hblock
  constructor
  · exact RoutesKeys.routes
  · intro h
    refine ⟨h, ?_, ?_⟩
    · intro t ht i block hblock entry hentry
      have hpart : p.keys[i]? = some (block.map Prod.fst) := by
        rw [Plan.keys, List.getElem?_map, hblock]
        rfl
      rw [findKeyDBIndex_eq ht]
      exact h.findIdx?_eq hkeysLen hkeysNe hpart (List.mem_map.2 ⟨entry, hentry, rfl⟩)
    · intro t ht key hkey
      rw [findKeyDBIndex_eq ht]
      refine h.findIdx?_eq_none hkeysLen hkeysNe ?_
      intro last hlast
      rw [Plan.separators, List.getLast?_map, Option.mem_def, Option.map_eq_some_iff] at hlast
      rcases hlast with ⟨e, he, rfl⟩
      exact hkey e he

theorem routesKeys_ofEntries {entries : List (Bytes × Bytes)}
    (hsorted : entries.Pairwise fun a b => a.1 < b.1) {p : Plan}
    (hplan : Plan.ofEntries entries = .ok p) :
    RoutesKeys p ↔ SpaceSeparated entries ∧ LastKeyCountsUp entries := by
  rcases bind_eq_ok.1 hplan with ⟨p₀, hrun, hlast⟩
  rcases Plan.run_routes hsorted hrun with ⟨hshape, hroutes⟩
  rcases Plan.finish_perBlock hshape hlast with ⟨hlen, hne⟩
  rw [routesKeys_iff hlen hne, Plan.routesOpen_finish hshape hsorted hlast, hroutes]

/-- The index of a table leads to every key exactly when each of its blocks ends
where a space separates, and the last key counts up. -/
theorem routesKeys_iff_separated (fm : FloatMath) {keysNum : ℤ} {entries : List (Bytes × Bytes)}
    (hkeys : ∀ entry ∈ entries, entry.1 ≠ [])
    (hsorted : entries.Pairwise fun a b => a.1 < b.1) {b₀ b b' : SSTableBuilder}
    (hnew : SSTableBuilder.new fm keysNum (FileWriter.openFile []) = .ok b₀)
    (hadd : b₀.addAll entries = .ok b) (hfinish : b.finishSst fm = .ok b') :
    ∃ p metaBlock, Plan.ofEntries entries = .ok p ∧ Written b'.fileWriter.file p metaBlock ∧
      (RoutesKeys p ↔ SpaceSeparated entries ∧ LastKeyCountsUp entries) := by
  rcases finishSst_written hkeys hnew hadd hfinish with ⟨p, metaBlock, hplan, hwritten⟩
  exact ⟨p, metaBlock, hplan, hwritten, routesKeys_ofEntries hsorted hplan⟩

/-- Three pairs in two blocks. -/
theorem routesKeys_iff_separated_split :
    ∃ b₀ b b', SSTableBuilder.new decimalMath 3 (FileWriter.openFile []) = .ok b₀ ∧
      b₀.addAll splitEntries = .ok b ∧ b.finishSst decimalMath = .ok b' ∧
      ∃ p metaBlock, Plan.ofEntries splitEntries = .ok p ∧
        Written b'.fileWriter.file p metaBlock ∧
        (RoutesKeys p ↔ SpaceSeparated splitEntries ∧ LastKeyCountsUp splitEntries) := by
  rcases splitEntries_build with ⟨file, hbuild, -⟩
  rcases SSTableBuilder.build_cases hbuild with ⟨b₀, b, b', hnew, hadd, hfinish, -⟩
  exact ⟨b₀, b, b', hnew, hadd, hfinish,
    routesKeys_iff_separated decimalMath splitEntries_keys splitEntries_sorted hnew hadd hfinish⟩

/-- The key that ends a block gets itself as the separator: the index does not lead
to it. -/
theorem cutEntries_not_routed :
    ∃ b₀ b b' p metaBlock, SSTableBuilder.new decimalMath 2 (FileWriter.openFile []) = .ok b₀ ∧
      b₀.addAll cutEntries = .ok b ∧ b.finishSst decimalMath = .ok b' ∧
      Plan.ofEntries cutEntries = .ok p ∧ Written b'.fileWriter.file p metaBlock ∧
      ¬ RoutesKeys p := by
  have hsorted : cutEntries.Pairwise fun a b => a.1 < b.1 := by
    decide +kernel
  have hcut : CutsAt [(ascii "a", [])] (ascii "b", List.replicate 4100 0) := by
    decide +kernel
  rcases cutEntries_build with ⟨file, hbuild, -⟩
  rcases SSTableBuilder.build_cases hbuild with ⟨b₀, b, b', hnew, hadd, hfinish, -⟩
  rcases finishSst_written cutEntries_keys hnew hadd hfinish with ⟨p, metaBlock, hplan, hwritten⟩
  refine ⟨b₀, b, b', p, metaBlock, hnew, hadd, hfinish, hplan, hwritten, ?_⟩
  rw [routesKeys_ofEntries hsorted hplan]
  rintro ⟨hspace, -⟩
  have hlt := (hspace [] _ _ (List.prefix_refl _) hcut).1
  revert hlt
  decide

end Smallkv
