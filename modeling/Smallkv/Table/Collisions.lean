import Smallkv.Lib.Mixing
import Smallkv.Storage.Path
import Smallkv.Table.Filter

/-!
# Table.Collisions — keys that the hash tells apart

Each round of the hash takes in four bytes and loses nothing: with the same bytes
two states stay apart, and from one state two groups of bytes lead to two. The
end of the hash loses nothing either. So keys of one length that differ within a
single group, or in the bytes behind the last one, never have the same hash.
-/

namespace Smallkv

open Mixing

namespace Murmur

/-! ## One round -/

/-- What four bytes contribute. -/
def scramble (k : UInt32) : UInt32 := (k * m ^^^ (k * m) >>> r) * m

def word (a b c d : Byte) : UInt32 :=
  a.toUInt32 ||| (b.toUInt32 <<< 8) ||| (c.toUInt32 <<< 16) ||| (d.toUInt32 <<< 24)

theorem mix_group (h : UInt32) (a b c d : Byte) (data : Bytes) :
    mix h (a :: b :: c :: d :: data) = mix ((h * m) ^^^ scramble (word a b c d)) data := rfl

theorem mul_m_injective : Function.Injective fun x : UInt32 => x * m :=
  mul_injective (show m * 0xe59b19bd = 1 by decide)

theorem xor_shift_inj {s x y : UInt32} (hs : 0 < (s.toBitVec % 32).toNat)
    (h : x ^^^ x >>> s = y ^^^ y >>> s) : x = y := by
  have hbits := congrArg UInt32.toBitVec h
  simp only [UInt32.toBitVec_xor, UInt32.toBitVec_shiftRight, BitVec.ushiftRight_eq'] at hbits
  exact UInt32.toBitVec_inj.1 (xor_shift_injective hs hbits)

theorem scramble_injective : Function.Injective scramble := by
  intro x y h
  have hshift := mul_m_injective h
  exact mul_m_injective (xor_shift_inj (by decide) hshift)

/-- The shifts are by whole bytes. -/
theorem shifts : (8 : UInt32) = UInt32.ofNat (8 * 1) ∧ (16 : UInt32) = UInt32.ofNat (8 * 2) ∧
    (24 : UInt32) = UInt32.ofNat (8 * 3) := ⟨rfl, rfl, rfl⟩

theorem getLsbD_first (a : Byte) {s i : ℕ} (hs : s < 4) (hi : i < 8) :
    a.toUInt32.toBitVec.getLsbD (8 * s + i) = (decide (s = 0) && a.toBitVec.getLsbD i) := by
  have hzero : a.toUInt32 <<< UInt32.ofNat (8 * 0) = a.toUInt32 := UInt32.shiftLeft_zero
  rw [← hzero, getLsbD_shifted a (by decide) hs hi]

theorem word_packs (a b c d : Byte) : Packs (word a b c d) [a, b, c, d] := by
  intro s hs i hi
  rw [word, shifts.1, shifts.2.1, shifts.2.2, UInt32.toBitVec_or, UInt32.toBitVec_or,
    UInt32.toBitVec_or, BitVec.getLsbD_or, BitVec.getLsbD_or, BitVec.getLsbD_or,
    getLsbD_first a hs hi, getLsbD_shifted b (by decide) hs hi,
    getLsbD_shifted c (by decide) hs hi, getLsbD_shifted d (by decide) hs hi]
  interval_cases s <;> simp

/-! ## The bytes behind the last group -/

/-- What they contribute. -/
def tailWord : Bytes → UInt32
  | [a] => a.toUInt32
  | [a, b] => (b.toUInt32 <<< 8) ^^^ a.toUInt32
  | [a, b, c] => (c.toUInt32 <<< 16) ^^^ (b.toUInt32 <<< 8) ^^^ a.toUInt32
  | _ => 0

theorem mixTail_eq {h : UInt32} {tail : Bytes} (hne : tail ≠ []) (hlt : tail.length < 4) :
    mixTail h tail = (h ^^^ tailWord tail) * m := by
  match tail with
  | [] => exact absurd rfl hne
  | [a] => rfl
  | [a, b] => rw [mixTail, tailWord, UInt32.xor_assoc]
  | [a, b, c] => rw [mixTail, tailWord, UInt32.xor_assoc, UInt32.xor_assoc, UInt32.xor_assoc]
  | a :: b :: c :: d :: tail =>
      simp only [List.length_cons] at hlt
      omega

theorem tailWord_packs {tail : Bytes} (hlt : tail.length < 4) : Packs (tailWord tail) tail := by
  intro s hs i hi
  match tail with
  | [] => simp [tailWord]
  | [a] =>
      rw [tailWord, getLsbD_first a hs hi]
      interval_cases s <;> simp
  | [a, b] =>
      rw [tailWord, shifts.1, UInt32.toBitVec_xor, BitVec.getLsbD_xor, getLsbD_first a hs hi,
        getLsbD_shifted b (by decide) hs hi]
      interval_cases s <;> simp
  | [a, b, c] =>
      rw [tailWord, shifts.1, shifts.2.1, UInt32.toBitVec_xor, UInt32.toBitVec_xor,
        BitVec.getLsbD_xor, BitVec.getLsbD_xor, getLsbD_first a hs hi,
        getLsbD_shifted b (by decide) hs hi, getLsbD_shifted c (by decide) hs hi]
      interval_cases s <;> simp
  | a :: b :: c :: d :: tail =>
      simp only [List.length_cons] at hlt
      omega

/-! ## All rounds -/

theorem mix_short {data : Bytes} (hlt : data.length < 4) (h : UInt32) : mix h data = (h, data) := by
  match data with
  | [] => rfl
  | [a] => rfl
  | [a, b] => rfl
  | [a, b, c] => rfl
  | a :: b :: c :: d :: tail =>
      simp only [List.length_cons] at hlt
      omega

/-- Whole groups first. -/
theorem mix_append {n : ℕ} {before : Bytes} (hlen : before.length = 4 * n) (h : UInt32)
    (data : Bytes) : mix h (before ++ data) = mix (mix h before).1 data := by
  induction n generalizing h before with
  | zero =>
      obtain rfl := List.length_eq_zero_iff.1 hlen
      rfl
  | succ n ih =>
      match before with
      | a :: b :: c :: d :: before =>
          simp only [List.length_cons] at hlen
          rw [List.cons_append, List.cons_append, List.cons_append, List.cons_append, mix_group,
            mix_group, ih (by omega)]
      | [] | [_] | [_, _] | [_, _, _] =>
          simp only [List.length_cons, List.length_nil] at hlen
          omega

/-- The state behind all bytes. -/
def digest (h : UInt32) (data : Bytes) : UInt32 := mixTail (mix h data).1 (mix h data).2

theorem digest_short {data : Bytes} (hne : data ≠ []) (hlt : data.length < 4) (h : UInt32) :
    digest h data = (h ^^^ tailWord data) * m := by
  rw [digest, mix_short hlt, mixTail_eq hne hlt]

theorem digest_group (h : UInt32) (a b c d : Byte) (data : Bytes) :
    digest h (a :: b :: c :: d :: data) = digest ((h * m) ^^^ scramble (word a b c d)) data := by
  rw [digest, mix_group, digest]

/-- States that are apart stay apart. -/
theorem digest_injective {data : Bytes} {h h' : UInt32} (heq : digest h data = digest h' data) :
    h = h' := by
  match data with
  | [] => exact heq
  | a :: b :: c :: d :: data =>
      rw [digest_group, digest_group] at heq
      have hmixed := digest_injective heq
      exact mul_m_injective ((UInt32.xor_left_inj _).1 hmixed)
  | [_] | [_, _] | [_, _, _] =>
      rw [digest_short (by simp) (by simp), digest_short (by simp) (by simp)] at heq
      exact (UInt32.xor_left_inj _).1 (mul_m_injective heq)

/-- What is done in the end loses nothing. -/
theorem final_injective {h h' : UInt32}
    (heq : ((h ^^^ (h >>> 13)) * m) ^^^ (((h ^^^ (h >>> 13)) * m) >>> 15) =
      ((h' ^^^ (h' >>> 13)) * m) ^^^ (((h' ^^^ (h' >>> 13)) * m) >>> 15)) : h = h' :=
  xor_shift_inj (by decide) (mul_m_injective (xor_shift_inj (by decide) heq))

theorem murmurHash2_eq {key : Bytes} (hlen : key.length < 2 ^ 32) :
    murmurHash2 key =
      ((digest (seed ^^^ UInt32.ofNat key.length) key ^^^
          (digest (seed ^^^ UInt32.ofNat key.length) key >>> 13)) * m) ^^^
        (((digest (seed ^^^ UInt32.ofNat key.length) key ^^^
          (digest (seed ^^^ UInt32.ofNat key.length) key >>> 13)) * m) >>> 15) := by
  have hnat : (UInt32.ofNat key.length).toNat = key.length := by
    rw [UInt32.toNat_ofNat', Nat.mod_eq_of_lt hlen]
  unfold murmurHash2
  simp only [hnat, List.take_length]
  rfl

/-- One group of four bytes, or what is behind the last group. -/
theorem digest_separates {w w' after : Bytes} (hlen : w.length = w'.length)
    (hgroup : w.length = 4 ∨ (w.length < 4 ∧ after = [])) {h : UInt32}
    (heq : digest h (w ++ after) = digest h (w' ++ after)) : w = w' := by
  rcases hgroup with hfour | ⟨hlt, rfl⟩
  · match w, w' with
    | [a, b, c, d], [a', b', c', d'] =>
        simp only [List.cons_append, List.nil_append, digest_group] at heq
        have hscrambled := (UInt32.xor_right_inj _).1 (digest_injective heq)
        have hword := scramble_injective hscrambled
        have hpacks := word_packs a b c d
        rw [hword] at hpacks
        exact hpacks.unique (word_packs a' b' c' d') rfl (le_refl _)
  · rw [List.append_nil, List.append_nil] at heq
    by_cases hw : w = []
    · rw [hw, List.length_nil] at hlen
      rw [hw, List.length_eq_zero_iff.1 hlen.symm]
    have hw' : w' ≠ [] := by
      rintro rfl
      exact hw (List.length_eq_zero_iff.1 hlen)
    rw [digest_short hw hlt, digest_short hw' (hlen ▸ hlt)] at heq
    have htail := (UInt32.xor_right_inj _).1 (mul_m_injective heq)
    have hpacks := tailWord_packs hlt
    rw [htail] at hpacks
    exact hpacks.unique (tailWord_packs (hlen ▸ hlt)) hlen (by omega)

end Murmur

open Murmur

/-- Two keys of one length that differ within one aligned group of four bytes, or behind
the last whole group, have different hashes. -/
theorem murmur_separates {before w w' after : Bytes} (haligned : before.length % 4 = 0)
    (hlen : w.length = w'.length) (hgroup : w.length = 4 ∨ (w.length < 4 ∧ after = []))
    (hshort : (before ++ (w ++ after)).length < 2 ^ 32) (hne : w ≠ w') :
    murmurHash2 (before ++ (w ++ after)) ≠ murmurHash2 (before ++ (w' ++ after)) := by
  intro heq
  have hlength : (before ++ (w' ++ after)).length = (before ++ (w ++ after)).length := by
    simp [hlen]
  rw [murmurHash2_eq hshort, murmurHash2_eq (hlength ▸ hshort), hlength] at heq
  have hdigest := final_injective heq
  have hbefore : before.length = 4 * (before.length / 4) := by omega
  rw [digest, digest, mix_append hbefore, mix_append hbefore] at hdigest
  exact hne (digest_separates hlen hgroup hdigest)

/-- In the second of three groups. -/
theorem murmur_separates_group :
    murmurHash2 (ascii "user" ++ (ascii "0001" ++ ascii "name")) ≠
      murmurHash2 (ascii "user" ++ (ascii "0002" ++ ascii "name")) :=
  murmur_separates (by decide) (by decide) (Or.inl (by decide)) (by decide) (by decide)

end Smallkv
