import Smallkv.Table.Filling

/-!
# Table.ShortestKey — a separator between two keys

`find_shortest_key` is to find a key above the first one and not above the second.
It puts a space behind a first key that is a prefix of the second, which may be
too much. Else it keeps one byte more than there are positions where the keys
agree and counts it up: that is not above the second key, and above the first one
unless the byte starts over.
-/

namespace Smallkv

open Fallible

/-- Only a prefix agrees everywhere. -/
theorem equalPositions_lt {a b : Bytes} (h : ¬ a <+: b) :
    SSTableBuilder.equalPositions a b < a.length := by
  unfold SSTableBuilder.equalPositions
  induction a generalizing b with
  | nil => exact absurd List.nil_prefix h
  | cons x a ih =>
      cases b with
      | nil => simp
      | cons y b =>
          have hle := equalPositions_le a b
          unfold SSTableBuilder.equalPositions at hle
          rw [List.zip_cons_cons, List.countP_cons, List.length_cons]
          by_cases hxy : x = y
          · have hlt := ih fun hpre => h (List.cons_prefix_cons.2 ⟨hxy, hpre⟩)
            split <;> omega
          · simp only [hxy, decide_false, Bool.false_eq_true, if_false]
            omega

/-- A key is below what its first bytes counted up are, unless the last of them
starts over. -/
theorem lt_bumpLast_take_iff {key s : Bytes} {n : ℕ} (hn : n < key.length)
    (hrun : SSTableBuilder.bumpLast (key.take (n + 1)) = .ok s) :
    key < s ↔ key[n]? ≠ some 255 := by
  induction key generalizing s n with
  | nil => cases hn
  | cons x key ih =>
      rw [List.take_succ_cons] at hrun
      cases n with
      | zero =>
          cases hrun
          -- 0xFF + 1 is 0 again
          show x :: key < [x + 1] ↔ _
          rw [List.cons_lt_cons_iff, byte_lt_succ_iff]
          simp
      | succ n =>
          have hne : key.take (n + 1) ≠ [] := by
            intro hnil
            have hlen := congrArg List.length hnil
            simp only [List.length_cons, List.length_take, List.length_nil] at hn hlen
            omega
          rcases bumpLast_cons hne hrun with ⟨tail, htail, rfl⟩
          have hn' : n < key.length := by
            rw [List.length_cons] at hn
            omega
          rw [List.cons_lt_cons_iff, List.getElem?_cons_succ, ← ih hn' htail]
          simp

theorem lt_append_byte (key : Bytes) (c : Byte) : key < key ++ [c] := by
  induction key with
  | nil => exact List.nil_lt_cons c []
  | cons x key ih => exact List.cons_lt_cons_iff.2 (Or.inr ⟨rfl, ih⟩)

/-- The two ways of `find_shortest_key` lead between the keys: a space behind a
prefix is not above the second key, and the byte that is counted up is not 0xFF. -/
structure Separable (key1 key2 : Bytes) : Prop where
  prefixed : key1 <+: key2 → key1 ++ [0x20] ≤ key2
  counted : ¬ key1 <+: key2 → key1[SSTableBuilder.equalPositions key1 key2]? ≠ some 0xff

variable {key1 key2 key : Bytes}

theorem lt_shortest_iff (hrun : SSTableBuilder.findShortestKey key1 key2 = .ok key) :
    key1 < key ↔
      (¬ key1 <+: key2 → key1[SSTableBuilder.equalPositions key1 key2]? ≠ some 0xff) := by
  rcases bind_eq_ok.1 hrun with ⟨_, -, hrun⟩
  rcases bind_eq_ok.1 hrun with ⟨_, -, hrun⟩
  rcases bind_eq_ok.1 hrun with ⟨_, -, hrun⟩
  simp only at hrun
  -- the two ways are told apart by the number of positions where the keys agree
  by_cases hpre : key1 <+: key2
  · rw [if_pos (equalPositions_eq_length hpre).symm] at hrun
    cases hrun
    exact iff_of_true (lt_append_byte key1 _) fun h => absurd hpre h
  · have hcount := equalPositions_lt hpre
    rw [if_neg hcount.ne'] at hrun
    rw [lt_bumpLast_take_iff hcount hrun]
    exact ⟨fun h _ => h, fun h => h hpre⟩

theorem shortest_le_iff (hrun : SSTableBuilder.findShortestKey key1 key2 = .ok key) :
    key ≤ key2 ↔ (key1 <+: key2 → key1 ++ [0x20] ≤ key2) := by
  have hlt := (findShortestKey_cases hrun).2.1
  rw [← not_lt, lt_findShortestKey_iff hrun]
  constructor
  · intro h _
    exact not_lt.1 h
  · intro h hbelow
    exact absurd (h (prefix_of_lt_append hlt hbelow)) (not_le.2 hbelow)

/-- For all keys, the first of them not empty and below the second: the shortest
key is above the first and not above the second exactly if they are separable. -/
theorem shortest_separates_iff (hne : key1 ≠ []) (hlt : key1 < key2) :
    (∃ key, SSTableBuilder.findShortestKey key1 key2 = .ok key ∧ key1 < key ∧ key ≤ key2) ↔
      Separable key1 key2 := by
  have hne2 : key2 ≠ [] := by
    rintro rfl
    exact List.not_lt_nil _ hlt
  rcases findShortestKey_ok hne hne2 hlt with ⟨key, hrun⟩
  constructor
  · rintro ⟨key', hrun', hlow, hhigh⟩
    exact ⟨(shortest_le_iff hrun').1 hhigh, (lt_shortest_iff hrun').1 hlow⟩
  · intro h
    exact ⟨key, hrun, (lt_shortest_iff hrun).2 h.counted, (shortest_le_iff hrun).2 h.prefixed⟩

theorem shortest_separates_iff_abecd :
    (∃ key, SSTableBuilder.findShortestKey [97, 98, 99, 100] [97, 98, 101, 99, 100] = .ok key ∧
        [97, 98, 99, 100] < key ∧ key ≤ [97, 98, 101, 99, 100]) ↔
      Separable [97, 98, 99, 100] [97, 98, 101, 99, 100] :=
  shortest_separates_iff (by decide) (by decide)

/-- A space is above the byte that makes the difference. -/
theorem control_byte_not_separated :
    ¬ ∃ key, SSTableBuilder.findShortestKey [97] [97, 1] = .ok key ∧ [97] < key ∧
      key ≤ [97, 1] := by
  rintro ⟨key, hrun, -, hle⟩
  cases hrun
  exact absurd hle (by decide)

end Smallkv
