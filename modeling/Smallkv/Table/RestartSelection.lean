import Smallkv.Lib.Separators
import Smallkv.Table.RestartPoints

/-!
# Table.RestartSelection — which group is searched

`FindKeyInDB` goes over the restart points, decodes the first key of each group
and stops at the first one above the key it looks for. Given restart points that
are true, the first keys are those of the groups (`findFullKeyByRP_spec`), the
points it has gone past are the ones not above the key (`collect_spec`), and the
last of them starts the only group that may hold it.
-/

namespace Smallkv

open Fallible PrefixCode Separators

/-! ## First keys -/

/-- The first key of a group. -/
def firstKey (entries : List (Bytes × Bytes)) (i : ℕ) : Bytes :=
  ((entries[kRestartInterval * i]?).map Prod.fst).getD []

/-- Where a group is. -/
def groupInfo (entries : List (Bytes × Bytes)) (i : ℕ) : OffsetInfo :=
  OffsetInfo.ofRange (groupStart entries i, (writeRecords (group entries i)).length)

theorem firstKey_eq {entries : List (Bytes × Bytes)} {i : ℕ} (hi : i < groupNum entries) :
    ∃ first, entries[kRestartInterval * i]? = some first ∧ firstKey entries i = first.1 := by
  have hlt := lt_of_lt_groupNum hi
  exact ⟨entries[kRestartInterval * i], List.getElem?_eq_getElem hlt,
    by rw [firstKey, List.getElem?_eq_getElem hlt]; rfl⟩

/-- A group starts with a record in which its first key is written in full. -/
theorem writeRecords_group {entries : List (Bytes × Bytes)} {i : ℕ} (hi : i < groupNum entries)
    {first : Bytes × Bytes} (hfirst : entries[kRestartInterval * i]? = some first) :
    ∃ front rest, writeRecords entries =
        front ++ DataBlockBuilder.record true [] first.1 first.2 ++ rest ∧
      front.length = groupStart entries i := by
  have hlt := lt_of_lt_groupNum hi
  have hdrop : entries.drop (kRestartInterval * i) =
      first :: entries.drop (kRestartInterval * i + 1) := by
    rw [List.drop_eq_getElem_cons hlt]
    rw [List.getElem?_eq_getElem hlt, Option.some.injEq] at hfirst
    rw [hfirst]
  have hfront : (entries.take (kRestartInterval * i)).length % kRestartInterval = 0 := by
    rw [List.length_take, min_eq_left hlt.le, Nat.mul_mod_right]
  have hsplit := writeRecords_restart hfront (entries.drop (kRestartInterval * i))
  rw [List.take_append_drop, hdrop] at hsplit
  refine ⟨writeRecords (entries.take (kRestartInterval * i)),
    encodeAll writeRecord RecordState.next (RecordState.start.next first)
      (entries.drop (kRestartInterval * i + 1)), ?_, rfl⟩
  rw [hsplit, List.append_assoc]
  rfl

/-- `FindFullKeyByRP` on a record in full: both assertions hold, and the key is
found. -/
theorem findFullKeyByRP_spec {content a c : Bytes} {first : Bytes × Bytes}
    (hcontent : content = a ++ DataBlockBuilder.record true [] first.1 first.2 ++ c)
    (hne : first.1 ≠ []) (hlen : first.1.length < 2 ^ 31) {start recordNum : ℤ} {info : OffsetInfo}
    (hpos : start + info.offset = a.length) (hnum : 0 < recordNum) :
    SSTParser.findFullKeyByRP content start recordNum info = .ok first.1 := by
  have hkeyPos := List.length_pos_of_ne_nil hne
  rw [DataBlockBuilder.record, if_pos rfl] at hcontent
  -- a restart point is a record that shares nothing
  have hshared : SSTParser.readInt32 content (start + info.offset) = .ok 0 := by
    refine readInt32_at (by norm_num) (by norm_num) (a := a) (c := encodeFixed32 first.1.length ++
      encodeFixed32 first.2.length ++ first.1 ++ first.2 ++ c) ?_ hpos
    have hzero : asUInt32 0 = 0 := rfl
    rw [hcontent, hzero]
    simp
  have hunshared : SSTParser.readInt32 content (start + info.offset + 4) =
      .ok first.1.length := by
    have hsize : asUInt32 first.1.length = first.1.length := by
      unfold asUInt32
      omega
    refine readInt32_at (by omega) (by omega) (a := a ++ encodeFixed32 0)
      (c := encodeFixed32 first.2.length ++ first.1 ++ first.2 ++ c) ?_ ?_
    · rw [hcontent, hsize]
      simp
    · rw [hpos, List.length_append, length_encodeFixed32]
      push_cast
      rfl
  have hkey : SSTParser.readString content (start + info.offset + 12) first.1.length =
      .ok first.1 := by
    have hsplit : content = (a ++ encodeFixed32 0 ++ encodeFixed32 first.1.length ++
        encodeFixed32 first.2.length) ++ first.1 ++ (first.2 ++ c) := by
      rw [hcontent]
      simp
    rw [SSTParser.readString, require_of (Int.natCast_nonneg _), ok_bind, hsplit]
    refine slice_append ?_ rfl
    rw [hpos]
    simp only [List.length_append, length_encodeFixed32]
    push_cast
    ring
  rw [SSTParser.findFullKeyByRP, require_of hnum]
  simp only [ok_bind, hshared, hunshared, require_of trivial,
    require_of (show (first.1.length : ℤ) > 0 by omega), hkey]

/-! ## True restart points -/

/-- The records of the block are at `start`, and `restartOffset` behind it there is
an entry for every group: how many records it has, and where it is. -/
structure TrueRestarts (content : Bytes) (start restartOffset : ℤ)
    (entries : List (Bytes × Bytes)) : Prop where
  records : ∃ a c, content = a ++ (blockOf entries).data ++ c ∧ start = a.length
  recordNum : ∀ i < groupNum entries,
    SSTParser.readInt32 content (start + restartOffset + i * 12) = .ok (group entries i).length
  offset : ∀ i < groupNum entries,
    readOffsetInfo content (start + restartOffset + i * 12 + 4) = .ok (groupInfo entries i)

/-- The restart point of a group, with its first key. -/
def selected (entries : List (Bytes × Bytes)) (i : ℕ) : RestartPoint :=
  ⟨(group entries i).length, groupInfo entries i, firstKey entries i⟩

theorem group_length_pos {entries : List (Bytes × Bytes)} {i : ℕ} (hi : i < groupNum entries) :
    0 < (group entries i).length := by
  have hlt := lt_of_lt_groupNum hi
  rw [length_group entries hi]
  unfold kRestartInterval at *
  split
  · omega
  · omega

/-- The first key of every group is found at its restart point. -/
theorem TrueRestarts.findFullKey {content : Bytes} {start restartOffset : ℤ}
    {entries : List (Bytes × Bytes)} (h : TrueRestarts content start restartOffset entries)
    (hkeys : ∀ entry ∈ entries, entry.1 ≠ []) (hsize : (blockOf entries).data.length < 2 ^ 31)
    {i : ℕ} (hi : i < groupNum entries) :
    SSTParser.findFullKeyByRP content start (group entries i).length (groupInfo entries i) =
      .ok (firstKey entries i) := by
  rcases firstKey_eq hi with ⟨first, hfirst, hkey⟩
  rcases h.records with ⟨a, c, hcontent, hstart⟩
  rcases writeRecords_group hi hfirst with ⟨front, rest, hrecords, hfront⟩
  rw [(blockFields hkeys).data] at hcontent hsize
  have hlen : first.1.length < 2 ^ 31 := by
    rw [hrecords, DataBlockBuilder.record, if_pos rfl] at hsize
    simp only [List.length_append] at hsize
    omega
  have hsplit : content =
      (a ++ front) ++ DataBlockBuilder.record true [] first.1 first.2 ++ (rest ++ c) := by
    rw [hcontent, hrecords]
    simp
  have hpos : start + (groupInfo entries i).offset = (a ++ front).length := by
    rw [hstart, groupInfo, OffsetInfo.ofRange, List.length_append, hfront]
    push_cast
    rfl
  have hnum : (0 : ℤ) < (group entries i).length := by
    have hgroup := group_length_pos hi
    omega
  rw [hkey]
  exact findFullKeyByRP_spec hsplit (hkeys first (List.mem_of_getElem? hfirst)) hlen hpos hnum

/-! ## The loop -/

/-- The loop goes past the restart points whose first key is not above the key, and
stops at the first other one, if there is one. -/
theorem collect_spec {content : Bytes} {start restartOffset : ℤ} (key : Bytes)
    (point : ℕ → RestartPoint) (n i : ℕ)
    (hnum : ∀ j, i ≤ j → j < i + n →
      SSTParser.readInt32 content (start + restartOffset + j * 12) = .ok (point j).recordNum)
    (hoffset : ∀ j, i ≤ j → j < i + n →
      readOffsetInfo content (start + restartOffset + j * 12 + 4) = .ok (point j).rpOffset)
    (hkey : ∀ j, i ≤ j → j < i + n →
      SSTParser.findFullKeyByRP content start (point j).recordNum (point j).rpOffset =
        .ok (point j).fullkey)
    (rps : List RestartPoint) :
    ∃ c ≤ n, SSTParser.collectRestartPoints content key start restartOffset n i rps =
        .ok (rps ++ (List.range' i c).map point) ∧
      (∀ j, i ≤ j → j < i + c → (point j).fullkey ≤ key) ∧
      (c < n → key < (point (i + c)).fullkey) := by
  induction n generalizing i rps with
  | zero => exact ⟨0, le_rfl, by simp [SSTParser.collectRestartPoints], by omega, by omega⟩
  | succ n ih =>
      rw [SSTParser.collectRestartPoints]
      simp only [hnum i le_rfl (by omega), hoffset i le_rfl (by omega),
        hkey i le_rfl (by omega), ok_bind]
      by_cases hlt : key < (point i).fullkey
      · -- the loop stops here
        rw [if_pos hlt]
        exact ⟨0, by omega, by simp, by omega, fun _ => hlt⟩
      · -- one restart point more that is not above the key
        rw [if_neg hlt]
        rcases ih (i + 1) (fun j hj hj' => hnum j (by omega) (by omega))
          (fun j hj hj' => hoffset j (by omega) (by omega))
          (fun j hj hj' => hkey j (by omega) (by omega)) (rps ++ [point i]) with
          ⟨c, hc, hrun, hpast, hstop⟩
        refine ⟨c + 1, by omega, ?_, ?_, ?_⟩
        · have hcast : ((i : ℤ) + 1) = ((i + 1 : ℕ) : ℤ) := by push_cast; rfl
          rw [hcast]
          rw [List.range'_succ, List.map_cons]
          simpa using hrun
        · intro j hj hj'
          rcases hj.eq_or_lt with rfl | hj
          · exact not_lt.1 hlt
          · exact hpast j hj (by omega)
        · intro hc'
          have hlast := hstop (by omega)
          rwa [show i + 1 + c = i + (c + 1) by omega] at hlast

/-! ## Groups and keys -/

/-- A group may hold a key: it is not below the first key of the group, and below
that of the next. -/
def GroupMayHold (entries : List (Bytes × Bytes)) (key : Bytes) (i : ℕ) : Prop :=
  MayHold (firstKey entries) (groupNum entries) key i

section Sorted

variable {entries : List (Bytes × Bytes)}

theorem key_le_of_le (hsorted : entries.Pairwise fun a b => a.1 < b.1) {i j : ℕ} (hij : i ≤ j)
    {a b : Bytes × Bytes} (ha : entries[i]? = some a) (hb : entries[j]? = some b) : a.1 ≤ b.1 := by
  rcases hij.eq_or_lt with rfl | hlt
  · rw [Option.some.inj (ha.symm.trans hb)]
  · rcases List.getElem?_eq_some_iff.1 ha with ⟨hi, rfl⟩
    rcases List.getElem?_eq_some_iff.1 hb with ⟨hj, rfl⟩
    exact (List.pairwise_iff_getElem.1 hsorted i j hi hj hlt).le

theorem firstKey_mono (hsorted : entries.Pairwise fun a b => a.1 < b.1) :
    ∀ i j, i ≤ j → j < groupNum entries → firstKey entries i ≤ firstKey entries j := by
  intro i j hij hj
  rcases firstKey_eq (hij.trans_lt hj) with ⟨a, ha, hfa⟩
  rcases firstKey_eq hj with ⟨b, hb, hfb⟩
  rw [hfa, hfb]
  exact key_le_of_le hsorted (Nat.mul_le_mul_left _ hij) ha hb

/-- Every pair is in the group of its place. -/
theorem mem_group {m : ℕ} {e : Bytes × Bytes} (he : entries[m]? = some e) :
    e ∈ group entries (m / kRestartInterval) := by
  have hplace : kRestartInterval * (m / kRestartInterval) + m % kRestartInterval = m :=
    Nat.div_add_mod m kRestartInterval
  have hlt : m % kRestartInterval < kRestartInterval := Nat.mod_lt m (by decide)
  refine List.mem_of_getElem? (i := m % kRestartInterval) ?_
  rw [group, List.getElem?_take_of_lt hlt, List.getElem?_drop, hplace, he]

/-- And this group may hold its key. -/
theorem mayHold_of_mem (hsorted : entries.Pairwise fun a b => a.1 < b.1) {m : ℕ}
    {e : Bytes × Bytes} (he : entries[m]? = some e) :
    GroupMayHold entries e.1 (m / kRestartInterval) := by
  have hm : m < entries.length := (List.getElem?_eq_some_iff.1 he).1
  have hgroup : m / kRestartInterval < groupNum entries := by
    unfold groupNum kRestartInterval
    omega
  refine ⟨hgroup, ?_, ?_⟩
  · rcases firstKey_eq hgroup with ⟨first, hfirst, hkey⟩
    rw [hkey]
    exact key_le_of_le hsorted (Nat.mul_div_le m kRestartInterval) hfirst he
  · intro hnext
    rcases firstKey_eq hnext with ⟨first, hfirst, hkey⟩
    rw [hkey]
    rcases List.getElem?_eq_some_iff.1 hfirst with ⟨hj, rfl⟩
    rcases List.getElem?_eq_some_iff.1 he with ⟨hm, rfl⟩
    refine List.pairwise_iff_getElem.1 hsorted m _ hm hj ?_
    unfold kRestartInterval
    omega

end Sorted

/-! ## The selection -/

/-- The loop over the restart points comes to its end, with none exactly for a key
below all others, and with the only group that may hold the key otherwise. -/
def SelectsGroup (content : Bytes) (start restartOffset : ℤ) (entries : List (Bytes × Bytes))
    (key : Bytes) : Prop :=
  ∃ rps, SSTParser.collectRestartPoints content key start restartOffset (groupNum entries) 0 [] =
      .ok rps ∧
    (rps = [] ↔ ∀ e ∈ entries, key < e.1) ∧
    ∀ rp, rps.getLast? = some rp → ∃ i, rp = selected entries i ∧ GroupMayHold entries key i ∧
      (∀ j, GroupMayHold entries key j → j = i) ∧
      ∀ e ∈ entries, e.1 = key → e ∈ group entries i

theorem TrueRestarts.selects {content : Bytes} {start restartOffset : ℤ}
    {entries : List (Bytes × Bytes)} (h : TrueRestarts content start restartOffset entries)
    (hkeys : ∀ entry ∈ entries, entry.1 ≠ [])
    (hsorted : entries.Pairwise fun a b => a.1 < b.1)
    (hsize : (blockOf entries).data.length < 2 ^ 31) (key : Bytes) :
    SelectsGroup content start restartOffset entries key := by
  rcases collect_spec key (selected entries) (groupNum entries) 0
    (fun j _ hj => h.recordNum j (by omega)) (fun j _ hj => h.offset j (by omega))
    (fun j _ hj => h.findFullKey hkeys hsize (by omega)) [] with ⟨c, hc, hrun, hpast, hstop⟩
  simp only [zero_add, List.nil_append, Nat.cast_zero] at hrun hpast hstop
  refine ⟨_, hrun, ?_, ?_⟩
  · rw [List.map_eq_nil_iff, List.range'_eq_nil_iff]
    constructor
    · -- the first key of all is above the key
      rintro rfl e he
      rcases List.mem_iff_getElem?.1 he with ⟨m, hm⟩
      have hpos := groupNum_pos (List.ne_nil_of_mem he)
      rcases firstKey_eq hpos with ⟨first, hfirst, hkey⟩
      calc key < firstKey entries 0 := hstop hpos
        _ = first.1 := hkey
        _ ≤ e.1 := key_le_of_le hsorted (Nat.zero_le m) hfirst hm
    · intro hbelow
      by_contra hne
      have hpos : 0 < groupNum entries := by omega
      rcases firstKey_eq hpos with ⟨first, hfirst, hkey⟩
      have hle : firstKey entries 0 ≤ key := hpast 0 (Nat.zero_le 0) (by omega)
      have hlt := hbelow first (List.mem_of_getElem? hfirst)
      rw [← hkey] at hlt
      exact absurd hle (not_le_of_gt hlt)
  · intro rp hrp
    -- the last point the loop has gone past
    obtain ⟨c, rfl⟩ : ∃ d, c = d + 1 := by
      cases c with
      | zero => simp at hrp
      | succ c => exact ⟨c, rfl⟩
    rw [List.range'_concat, List.map_append, List.map_singleton, List.getLast?_concat,
      Option.some.injEq] at hrp
    simp only [zero_add, one_mul] at hrp
    have hmay : GroupMayHold entries key c :=
      ⟨hc, hpast c (Nat.zero_le c) (Nat.lt_succ_self c), fun hlt => hstop hlt⟩
    have hunique : ∀ j, GroupMayHold entries key j → j = c :=
      fun j hj => MayHold.unique (firstKey_mono hsorted) hj hmay
    refine ⟨c, hrp.symm, hmay, hunique, ?_⟩
    rintro e he rfl
    rcases List.mem_iff_getElem?.1 he with ⟨m, hm⟩
    rw [← hunique _ (mayHold_of_mem hsorted hm)]
    exact mem_group hm

/-- Given true restart points, the first key of every group is found, and the group
that is searched is the only one that may hold the key. -/
theorem restart_selection {entries : List (Bytes × Bytes)}
    (hkeys : ∀ entry ∈ entries, entry.1 ≠ [])
    (hsorted : entries.Pairwise fun a b => a.1 < b.1)
    (hsize : (blockOf entries).data.length < 2 ^ 31) {content : Bytes} {start restartOffset : ℤ}
    (h : TrueRestarts content start restartOffset entries) :
    (∀ i < groupNum entries, ∃ first, entries[kRestartInterval * i]? = some first ∧
      SSTParser.findFullKeyByRP content start (group entries i).length (groupInfo entries i) =
        .ok first.1) ∧
    ∀ key, SelectsGroup content start restartOffset entries key := by
  constructor
  · intro i hi
    rcases firstKey_eq hi with ⟨first, hfirst, hkey⟩
    exact ⟨first, hfirst, by rw [h.findFullKey hkeys hsize hi, hkey]⟩
  · exact h.selects hkeys hsorted hsize

/-- Seventeen keys of one letter: one group is full and the next one has begun. -/
def letters : List (Bytes × Bytes) := (ascii "abcdefghijklmnopq").map fun key => ([key], [])

/-- In a finished block of seventeen pairs the restart points that are written are
true: they stand right behind the records. -/
theorem restart_selection_letters :
    (∀ i < groupNum letters, ∃ first, letters[kRestartInterval * i]? = some first ∧
      SSTParser.findFullKeyByRP (blockOf letters).finishDataBlock.data 0 (group letters i).length
        (groupInfo letters i) = .ok first.1) ∧
    ∀ key, SelectsGroup (blockOf letters).finishDataBlock.data 0 221 letters key := by
  have hnum : groupNum letters = 2 := by decide
  refine restart_selection (by decide) (by decide) (by decide +kernel) ?_
  constructor
  case records => exact ⟨[], _, rfl, rfl⟩
  case recordNum =>
    intro i hi
    rw [hnum] at hi
    interval_cases i <;> decide +kernel
  case offset =>
    intro i hi
    rw [hnum] at hi
    interval_cases i <;> decide +kernel

end Smallkv
