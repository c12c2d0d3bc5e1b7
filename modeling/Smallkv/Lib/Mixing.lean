import Mathlib

/-!
# Mixing — steps of a hash that lose nothing

Hash functions are put together from steps on words: a word is multiplied by an
odd number, or its own shift is added to it without carry, or it is packed from
bytes. None of these steps maps two words to one.
-/

namespace Mixing

/-- The upper bits stay, and tell the lower ones what was added to them. -/
theorem xor_shift_injective {w n : ℕ} (hn : 0 < n) :
    Function.Injective fun x : BitVec w => x ^^^ (x >>> n) := by
  intro x y h
  -- from the highest bit downwards
  have hbits : ∀ k i, w ≤ i + k → x.getLsbD i = y.getLsbD i := by
    intro k
    induction k with
    | zero =>
        intro i hi
        rw [BitVec.getLsbD_of_ge _ _ (by omega), BitVec.getLsbD_of_ge _ _ (by omega)]
    | succ k ih =>
        intro i hi
        have hbit := congrArg (fun z : BitVec w => z.getLsbD i) h
        simp only [BitVec.getLsbD_xor, BitVec.getLsbD_ushiftRight, ih (n + i) (by omega)] at hbit
        exact Bool.xor_left_inj.1 hbit
  apply BitVec.eq_of_getLsbD_eq
  intro i _
  exact hbits w i (by omega)

/-- An odd number has an inverse. -/
theorem mul_injective {R : Type u} [Monoid R] {m inverse : R} (h : m * inverse = 1) :
    Function.Injective fun x : R => x * m := by
  intro x y hxy
  have hcancel : x * m * inverse = y * m * inverse := congrArg (· * inverse) hxy
  rwa [mul_assoc, mul_assoc, h, mul_one, mul_one] at hcancel

/-! ## Bytes in a word -/

/-- Byte `s` of the word is byte `s` of the list, or zero where there is none. -/
def Packs (z : UInt32) (xs : List UInt8) : Prop :=
  ∀ s < 4, ∀ i < 8, z.toBitVec.getLsbD (8 * s + i) = (xs.getD s 0).toBitVec.getLsbD i

/-- A byte that was shifted to its place. -/
theorem getLsbD_shifted (x : UInt8) {t : ℕ} (ht : t < 4) {s i : ℕ} (hs : s < 4) (hi : i < 8) :
    (x.toUInt32 <<< UInt32.ofNat (8 * t)).toBitVec.getLsbD (8 * s + i) =
      (decide (s = t) && x.toBitVec.getLsbD i) := by
  have hmod : (UInt32.ofNat (8 * t)).toBitVec % 32 = BitVec.ofNat 32 (8 * t) := by
    have hall : ∀ t < 4, (UInt32.ofNat (8 * t)).toBitVec % 32 = BitVec.ofNat 32 (8 * t) := by decide
    exact hall t ht
  have hnat : (BitVec.ofNat 32 (8 * t)).toNat = 8 * t := by
    rw [BitVec.toNat_ofNat]
    omega
  rw [UInt32.toBitVec_shiftLeft, hmod, BitVec.shiftLeft_eq', hnat, BitVec.getLsbD_shiftLeft,
    UInt8.toBitVec_toUInt32, BitVec.getLsbD_setWidth]
  rcases lt_trichotomy s t with hlt | rfl | hgt
  · simp [show 8 * s + i < 8 * t by omega, show s ≠ t by omega]
  · simp [show 8 * s + i < 32 by omega, show i < 32 by omega]
  · have hge : x.toBitVec.getLsbD (8 * s + i - 8 * t) = false :=
      BitVec.getLsbD_of_ge _ _ (by omega)
    simp [hge, show s ≠ t by omega]

/-- A word holds one list of a length. -/
theorem Packs.unique {z : UInt32} {xs ys : List UInt8} (hx : Packs z xs) (hy : Packs z ys)
    (hlen : xs.length = ys.length) (hfour : xs.length ≤ 4) : xs = ys := by
  apply List.ext_getElem hlen
  intro s hs hs'
  apply UInt8.toBitVec_inj.1
  apply BitVec.eq_of_getLsbD_eq
  intro i hi
  have hbyte := (hx s (by omega) i hi).symm.trans (hy s (by omega) i hi)
  rwa [List.getD_eq_getElem _ _ hs, List.getD_eq_getElem _ _ hs'] at hbyte

end Mixing
