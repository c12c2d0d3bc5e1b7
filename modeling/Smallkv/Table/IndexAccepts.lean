import Smallkv.Table.IndexReload

/-!
# Table.IndexAccepts — what the index loop of `Parse` accepts

The loop reads lengths from the file and goes where they lead. That it comes out
exactly at the end of its range, with every read inside the file, leaves one
possibility: the range holds entries as `IndexBlockBuilder::add` writes them, and
these are what was read (`index_accepted_iff`). No other bytes get through, and
none are read in two ways.
-/

namespace Smallkv

open Fallible

/-! ## Bytes that were decoded -/

theorem encodeFixed_fixedValue (bytes : Bytes) :
    encodeFixed bytes.length (fixedValue bytes) = bytes := by
  induction bytes with
  | nil => rfl
  | cons b bytes ih =>
      have hb := b.toNat_lt
      have hlow : (b.toNat + 256 * fixedValue bytes) % 256 = b.toNat := by omega
      have hhigh : (b.toNat + 256 * fixedValue bytes) / 256 = fixedValue bytes := by omega
      rw [List.length_cons, encodeFixed, fixedValue, hlow, hhigh, ih, UInt8.ofNat_toNat]

theorem fixedValue_lt (bytes : Bytes) : fixedValue bytes < 256 ^ bytes.length := by
  induction bytes with
  | nil => simp [fixedValue]
  | cons b bytes ih =>
      have hb := b.toNat_lt
      rw [List.length_cons, pow_succ', fixedValue]
      omega

theorem asUInt32_asInt32 {n : ℕ} (h : n < 2 ^ 32) : asUInt32 (asInt32 n) = n := by
  unfold asUInt32 asInt32
  rw [Int.bmod_def]
  split
  · omega
  · omega

/-- What a read found is what stands there. -/
theorem slice_ok {buf bytes : Bytes} {pos len : ℤ} (h : slice buf pos len = .ok bytes) :
    0 ≤ pos ∧ pos + len ≤ buf.length ∧ (bytes.length : ℤ) = len ∧
      buf.drop pos.toNat = bytes ++ buf.drop (pos + len).toNat := by
  rcases bind_eq_ok.1 h with ⟨_, hin, h⟩
  obtain rfl := Except.ok.inj h
  rcases require_eq_ok.1 hin with ⟨hpos, hlen, hend⟩
  refine ⟨hpos, hend, ?_, ?_⟩
  · rw [List.length_take, List.length_drop]
    omega
  · rw [Int.toNat_add hpos hlen, ← List.drop_drop, List.take_append_drop]

theorem isInt32_asInt32 (x y : ℤ) : (⟨asInt32 x, asInt32 y⟩ : OffsetInfo).IsInt32 := by
  have hx := asInt32_bounds x
  have hy := asInt32_bounds y
  constructor
  · simpa only using hx
  · simpa only using hy

theorem readOffsetInfo_ok {buf : Bytes} {pos : ℤ} {o : OffsetInfo}
    (h : readOffsetInfo buf pos = .ok o) :
    pos + 8 ≤ buf.length ∧ o.IsInt32 ∧
      buf.drop pos.toNat = encodeOffsetInfo o ++ buf.drop (pos + 8).toNat := by
  rcases bind_eq_ok.1 h with ⟨bits, hdecode, h⟩
  rcases bind_eq_ok.1 hdecode with ⟨bytes, hslice, hdecode⟩
  obtain rfl := Except.ok.inj hdecode
  obtain rfl := Except.ok.inj h
  rcases slice_ok hslice with ⟨-, hend, hlen, hbuf⟩
  have hlen8 : bytes.length = 8 := by omega
  have hlt := fixedValue_lt bytes
  rw [hlen8] at hlt
  have hbits : (OffsetInfo.ofBits (fixedValue bytes)).bits = fixedValue bytes := by
    rw [OffsetInfo.ofBits, OffsetInfo.bits, asUInt32_asInt32 (by omega),
      asUInt32_asInt32 (by omega)]
    omega
  refine ⟨hend, isInt32_asInt32 _ _, ?_⟩
  rw [encodeOffsetInfo, hbits, encodeFixed64, hbuf, ← hlen8, encodeFixed_fixedValue]

namespace SSTParser

/-- The size, the key and the `OffsetInfo` that a turn of the loop reads are an entry. -/
theorem readEntry_ok {content key : Bytes} {start size : ℤ} {o : OffsetInfo}
    (hsize : readInt32 content start = .ok size)
    (hkey : readString content (start + 4) size = .ok key)
    (hoffset : readOffsetInfo content (start + 4 + size) = .ok o) :
    0 ≤ start ∧ size = key.length ∧ start + (4 + size + 8) ≤ content.length ∧ o.IsInt32 ∧
      content.drop start.toNat =
        indexEntry ⟨key, o⟩ ++ content.drop (start + (4 + size + 8)).toNat := by
  rcases bind_eq_ok.1 hsize with ⟨val, hdecode, hsize⟩
  rcases bind_eq_ok.1 hdecode with ⟨bytes, hslice, hdecode⟩
  obtain rfl := Except.ok.inj hdecode
  replace hsize := Except.ok.inj hsize
  have hbounds := asInt32_bounds (fixedValue bytes)
  rw [hsize] at hbounds
  rcases bind_eq_ok.1 hkey with ⟨_, hnonneg, hkey⟩
  have hnonneg := require_eq_ok.1 hnonneg
  rcases slice_ok hslice with ⟨hstart, -, hlen₁, hbuf₁⟩
  rcases slice_ok hkey with ⟨-, -, hlen₂, hbuf₂⟩
  rcases readOffsetInfo_ok hoffset with ⟨hend, hfields, hbuf₃⟩
  have hlen4 : bytes.length = 4 := by omega
  have hlt := fixedValue_lt bytes
  rw [hlen4] at hlt
  have hval : asUInt32 size = fixedValue bytes := by
    rw [← hsize]
    exact asUInt32_asInt32 (by omega)
  have hbytes : encodeFixed32 (asUInt32 size) = bytes := by
    rw [hval, encodeFixed32, ← hlen4, encodeFixed_fixedValue]
  refine ⟨hstart, hlen₂.symm, by omega, hfields, ?_⟩
  have hnext : start + (4 + size + 8) = start + 4 + size + 8 := by ring
  have hkeyLen : asUInt32 size = key.length := by
    unfold asUInt32
    omega
  rw [hbuf₁, hbuf₂, hbuf₃, hnext, indexEntry, ← hkeyLen, hbytes, List.append_assoc,
    List.append_assoc]

/-- Where the loop comes out at its end, it has read entries all the way. -/
theorem parseIndex_ok {content : Bytes} (hlen : content.length < 2 ^ 31) {stop start : ℤ}
    {fuel : ℕ} {blocks index : List IndexBlock}
    (hrun : parseIndex content stop fuel start blocks = .ok index) :
    ∃ read, index = blocks ++ read ∧ (start = stop ∧ read = [] ∨
      0 ≤ start ∧ stop ≤ content.length ∧ start ≤ stop ∧ (∀ e ∈ read, e.offsetInfo.IsInt32) ∧
        content.drop start.toNat = indexBytes read ++ content.drop stop.toNat) := by
  induction fuel generalizing start blocks with
  | zero => cases hrun
  | succ fuel ih =>
      by_cases hlt : start < stop
      · rw [parseIndex, if_pos hlt] at hrun
        rcases bind_eq_ok.1 hrun with ⟨size, hsize, hrun⟩
        rcases bind_eq_ok.1 hrun with ⟨key, hkey, hrun⟩
        rcases bind_eq_ok.1 hrun with ⟨o, hoffset, hrun⟩
        rcases readEntry_ok hsize hkey hoffset with ⟨hstart, hsizeEq, hend, hfields, hentry⟩
        rw [asInt32_of_lt (by omega) (by omega)] at hrun
        rcases ih hrun with ⟨read, rfl, hread⟩
        refine ⟨⟨key, o⟩ :: read, by simp, Or.inr ?_⟩
        rcases hread with ⟨hstop, rfl⟩ | ⟨-, hin, hle, hrest, hdrop⟩
        · refine ⟨hstart, by omega, hlt.le, by simpa using hfields, ?_⟩
          rw [hentry, hstop, indexBytes_cons]
          simp [indexBytes]
        · refine ⟨hstart, hin, hlt.le, ?_, ?_⟩
          · intro e he
            rcases List.mem_cons.1 he with rfl | he
            · exact hfields
            · exact hrest e he
          · rw [hentry, hdrop, indexBytes_cons, List.append_assoc]
      · have hstop := parseIndex_skipped hlt hrun
        rw [parseIndex, if_neg hlt, require_of hstop, ok_bind] at hrun
        obtain rfl := Except.ok.inj hrun
        exact ⟨[], by simp, Or.inl ⟨hstop, rfl⟩⟩

end SSTParser

open SSTParser

/-- In a file of less than 2 GiB the index loop over a range comes out with these
entries exactly if the range holds them, one behind the other and as `add` writes
them, or if it is empty. -/
theorem index_accepted_iff {content : Bytes} (hlen : content.length < 2 ^ 31) (start stop : ℤ)
    (index : List IndexBlock) :
    parseIndex content stop (content.length + 1) start [] = .ok index ↔
      start = stop ∧ index = [] ∨
        ∃ a c, content = a ++ indexBytes index ++ c ∧ (a.length : ℤ) = start ∧
          stop = a.length + (indexBytes index).length ∧ ∀ e ∈ index, e.offsetInfo.IsInt32 := by
  constructor
  · intro hrun
    rcases parseIndex_ok hlen hrun with ⟨read, rfl, hread⟩
    refine hread.imp_right ?_
    rintro ⟨hstart, hin, hle, hfields, hdrop⟩
    have hlength := congrArg List.length hdrop
    rw [List.length_append, List.length_drop, List.length_drop] at hlength
    refine ⟨content.take start.toNat, content.drop stop.toNat, ?_, ?_, ?_, hfields⟩
    · rw [List.append_assoc, ← hdrop, List.take_append_drop]
    · rw [List.length_take]
      omega
    · rw [List.length_take]
      omega
  · rintro (⟨rfl, rfl⟩ | ⟨a, c, hcontent, rfl, rfl, hfields⟩)
    · rw [parseIndex, if_neg (lt_irrefl _), require_of rfl]
      rfl
    · have hle := length_le_indexBytes index
      have hlength := congrArg List.length hcontent
      rw [List.length_append, List.length_append] at hlength
      rw [(parseIndex_spec hfields hcontent (by omega) rfl (by omega) []).1, List.nil_append]

/-- An entry between two other bytes. -/
theorem index_accepted_iff_byte :
    parseIndex ([9] ++ indexBytes [⟨ascii "k", ⟨1, 2⟩⟩] ++ [9]) 14
        (([9] ++ indexBytes [⟨ascii "k", ⟨1, 2⟩⟩] ++ [9]).length + 1) 1 [] =
          .ok [⟨ascii "k", ⟨1, 2⟩⟩] ↔
      (1 : ℤ) = 14 ∧ [⟨ascii "k", ⟨1, 2⟩⟩] = ([] : List IndexBlock) ∨
        ∃ a c, [9] ++ indexBytes [⟨ascii "k", ⟨1, 2⟩⟩] ++ [9] =
            a ++ indexBytes [⟨ascii "k", ⟨1, 2⟩⟩] ++ c ∧ (a.length : ℤ) = 1 ∧
          (14 : ℤ) = a.length + (indexBytes [⟨ascii "k", ⟨1, 2⟩⟩]).length ∧
          ∀ e ∈ [(⟨ascii "k", ⟨1, 2⟩⟩ : IndexBlock)], e.offsetInfo.IsInt32 :=
  index_accepted_iff (by decide) 1 14 [⟨ascii "k", ⟨1, 2⟩⟩]

end Smallkv
