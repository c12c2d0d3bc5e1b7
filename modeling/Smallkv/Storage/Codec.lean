import Smallkv.Base

/-!
# Storage.Codec — little-endian integers and checked reads

`EncodeFixed8/32/64` are one function of the width, and so are the decoders.
The readers of the code take a raw pointer; here they take the buffer and a
position, and a read that leaves the buffer is a fault.
-/

namespace Smallkv

open Fallible

/-! ## Encoding -/

/-- The low `n` bytes of a number, lowest first. -/
def encodeFixed : ℕ → ℕ → Bytes
  | 0, _ => []
  | n + 1, val => UInt8.ofNat (val % 256) :: encodeFixed n (val / 256)

def encodeFixed32 (val : ℕ) : Bytes := encodeFixed 4 val

def encodeFixed64 (val : ℕ) : Bytes := encodeFixed 8 val

/-- The number that bytes denote, lowest byte first. -/
def fixedValue : Bytes → ℕ
  | [] => 0
  | b :: bs => b.toNat + 256 * fixedValue bs

@[simp] theorem length_encodeFixed (n val : ℕ) : (encodeFixed n val).length = n := by
  induction n generalizing val with
  | zero => rfl
  | succ n ih => simp [encodeFixed, ih]

@[simp] theorem length_encodeFixed32 (val : ℕ) : (encodeFixed32 val).length = 4 :=
  length_encodeFixed 4 val

@[simp] theorem length_encodeFixed64 (val : ℕ) : (encodeFixed64 val).length = 8 :=
  length_encodeFixed 8 val

/-- The bytes of a number in two parts, the low ones first. -/
theorem encodeFixed_add (m n val : ℕ) :
    encodeFixed (m + n) val = encodeFixed m val ++ encodeFixed n (val / 256 ^ m) := by
  induction m generalizing val with
  | zero => simp [encodeFixed]
  | succ m ih =>
      rw [Nat.succ_add, encodeFixed, ih, encodeFixed, List.cons_append, Nat.div_div_eq_div_mul,
        pow_succ']

/-- The low bytes are those of the remainder. -/
theorem encodeFixed_mod (n val : ℕ) : encodeFixed n (val % 256 ^ n) = encodeFixed n val := by
  induction n generalizing val with
  | zero => rfl
  | succ n ih =>
      have hlow : val % 256 ^ (n + 1) % 256 = val % 256 := by
        rw [pow_succ', Nat.mod_mul_right_mod]
      have hhigh : val % 256 ^ (n + 1) / 256 = val / 256 % 256 ^ n := by
        rw [pow_succ', Nat.mod_mul_right_div_self]
      rw [encodeFixed, encodeFixed, hlow, hhigh, ih]

theorem fixedValue_encodeFixed (n val : ℕ) :
    fixedValue (encodeFixed n val) = val % 256 ^ n := by
  induction n generalizing val with
  | zero => simp [encodeFixed, fixedValue, Nat.mod_one]
  | succ n ih =>
      have hbyte : (UInt8.ofNat (val % 256)).toNat = val % 256 := by
        simp
      rw [encodeFixed, fixedValue, ih, hbyte, pow_succ', Nat.mod_mul]

theorem fixedValue_encodeFixed32 {val : ℕ} (h : val < 2 ^ 32) :
    fixedValue (encodeFixed32 val) = val := by
  rw [encodeFixed32, fixedValue_encodeFixed]
  exact Nat.mod_eq_of_lt (by omega)

theorem fixedValue_encodeFixed64 {val : ℕ} (h : val < 2 ^ 64) :
    fixedValue (encodeFixed64 val) = val := by
  rw [encodeFixed64, fixedValue_encodeFixed]
  exact Nat.mod_eq_of_lt (by omega)

/-! ## Checked reads -/

/-- `len` bytes at `pos`, which have to lie inside the buffer. -/
def slice (buf : Bytes) (pos len : ℤ) : Exec Bytes := do
  require .badAccess (0 ≤ pos ∧ 0 ≤ len ∧ pos + len ≤ buf.length)
  pure ((buf.drop pos.toNat).take len.toNat)

def decodeFixed32 (buf : Bytes) (pos : ℤ) : Exec ℕ := do
  let bytes ← slice buf pos 4
  pure (fixedValue bytes)

def decodeFixed64 (buf : Bytes) (pos : ℤ) : Exec ℕ := do
  let bytes ← slice buf pos 8
  pure (fixedValue bytes)

/-- A read that stays inside one part of a concatenation. -/
theorem slice_append {a b c : Bytes} {pos len : ℤ} (hpos : pos = a.length)
    (hlen : len = b.length) : slice (a ++ b ++ c) pos len = .ok b := by
  subst hpos hlen
  have hin : (0 : ℤ) ≤ a.length ∧ (0 : ℤ) ≤ b.length ∧
      (a.length : ℤ) + b.length ≤ (a ++ b ++ c).length := by
    simp only [List.length_append]
    omega
  rw [slice, require_of hin]
  simp

/-! ## Reading off the front -/

/-- The first `n` bytes of a stream and what follows them. -/
def takeBytes (n : ℕ) (stream : Bytes) : Option (Bytes × Bytes) :=
  if n ≤ stream.length then some (stream.take n, stream.drop n) else none

theorem takeBytes_append {n : ℕ} {a : Bytes} (hn : a.length = n) (b : Bytes) :
    takeBytes n (a ++ b) = some (a, b) := by
  subst hn
  simp [takeBytes]

theorem takeBytes_eq_some {n : ℕ} {stream a b : Bytes} :
    takeBytes n stream = some (a, b) ↔ stream = a ++ b ∧ a.length = n := by
  constructor
  · intro h
    unfold takeBytes at h
    split at h
    · rename_i hle
      simp only [Option.some.injEq, Prod.mk.injEq] at h
      rcases h with ⟨rfl, rfl⟩
      exact ⟨(List.take_append_drop n stream).symm, by simpa using hle⟩
    · simp at h
  · rintro ⟨rfl, hn⟩
    exact takeBytes_append hn b

/-- A 32-bit number at the front of a stream. -/
def takeFixed32 (stream : Bytes) : Option (ℕ × Bytes) := do
  let (bytes, rest) ← takeBytes 4 stream
  pure (fixedValue bytes, rest)

theorem takeFixed32_append {val : ℕ} (h : val < 2 ^ 32) (b : Bytes) :
    takeFixed32 (encodeFixed32 val ++ b) = some (val, b) := by
  simp [takeFixed32, takeBytes_append (length_encodeFixed32 val), fixedValue_encodeFixed32 h]

theorem takeFixed32_eq_some {val : ℕ} {stream rest : Bytes} :
    takeFixed32 stream = some (val, rest) ↔
      ∃ bytes, stream = bytes ++ rest ∧ bytes.length = 4 ∧ fixedValue bytes = val := by
  simp only [takeFixed32, Option.pure_def, Option.bind_eq_bind, Option.bind_eq_some_iff,
    Prod.exists, Option.some.injEq, Prod.mk.injEq]
  constructor
  · rintro ⟨bytes, rest', htake, hval, rfl⟩
    rcases takeBytes_eq_some.1 htake with ⟨hstream, hlen⟩
    exact ⟨bytes, hstream, hlen, hval⟩
  · rintro ⟨bytes, hstream, hlen, hval⟩
    exact ⟨bytes, rest, takeBytes_eq_some.2 ⟨hstream, hlen⟩, hval, rfl⟩

/-! ## Offsets -/

/-- `OffsetInfo`: both fields are `int32_t`. -/
structure OffsetInfo where
  size : ℤ
  offset : ℤ
deriving DecidableEq, Repr

namespace OffsetInfo

def empty : OffsetInfo := ⟨0, 0⟩

/-- The object read as a `uint64_t` on a little-endian host. -/
def bits (o : OffsetInfo) : ℕ := asUInt32 o.size + 2 ^ 32 * asUInt32 o.offset

/-- The object whose memory holds these eight bytes. -/
def ofBits (n : ℕ) : OffsetInfo := ⟨asInt32 (n % 2 ^ 32 : ℕ), asInt32 (n / 2 ^ 32 : ℕ)⟩

theorem bits_lt (o : OffsetInfo) : o.bits < 2 ^ 64 := by
  have hsize := asUInt32_lt o.size
  have hoffset := asUInt32_lt o.offset
  unfold bits
  omega

theorem asInt32_asUInt32 {x : ℤ} (hlow : -2 ^ 31 ≤ x) (hhigh : x < 2 ^ 31) :
    asInt32 (asUInt32 x) = x := by
  have hx : ((asUInt32 x : ℕ) : ℤ) = x % ((2 ^ 32 : ℕ) : ℤ) := by
    unfold asUInt32
    omega
  unfold asInt32
  rw [hx, Int.emod_bmod, Int.bmod_eq_of_le] <;> omega

theorem ofBits_bits {o : OffsetInfo} (hs : -2 ^ 31 ≤ o.size ∧ o.size < 2 ^ 31)
    (ho : -2 ^ 31 ≤ o.offset ∧ o.offset < 2 ^ 31) : ofBits o.bits = o := by
  -- the two halves of the word do not overlap
  have hsize := asUInt32_lt o.size
  have hlow : o.bits % 2 ^ 32 = asUInt32 o.size := by
    unfold bits
    omega
  have hhigh : o.bits / 2 ^ 32 = asUInt32 o.offset := by
    unfold bits
    omega
  rw [ofBits, hlow, hhigh, asInt32_asUInt32 hs.1 hs.2, asInt32_asUInt32 ho.1 ho.2]

end OffsetInfo

/-- `*reinterpret_cast<OffsetInfo *>(ptr)`. -/
def readOffsetInfo (buf : Bytes) (pos : ℤ) : Exec OffsetInfo := do
  let bits ← decodeFixed64 buf pos
  pure (OffsetInfo.ofBits bits)

/-- `PutFixed64(dst, *reinterpret_cast<uint64_t *>(&offsetInfo))`. -/
def encodeOffsetInfo (o : OffsetInfo) : Bytes := encodeFixed64 o.bits

/-- Its fields are one behind the other. -/
theorem encodeOffsetInfo_eq (o : OffsetInfo) :
    encodeOffsetInfo o = encodeFixed32 (asUInt32 o.size) ++ encodeFixed32 (asUInt32 o.offset) := by
  have hsize := asUInt32_lt o.size
  have hlow : o.bits % 256 ^ 4 = asUInt32 o.size := by
    unfold OffsetInfo.bits
    omega
  have hhigh : o.bits / 256 ^ 4 = asUInt32 o.offset := by
    unfold OffsetInfo.bits
    omega
  rw [encodeOffsetInfo, encodeFixed64, encodeFixed_add 4 4, hhigh, ← encodeFixed_mod, hlow,
    encodeFixed32, encodeFixed32]

@[simp] theorem length_encodeOffsetInfo (o : OffsetInfo) : (encodeOffsetInfo o).length = 8 :=
  length_encodeFixed64 _

/-- An `OffsetInfo` is read back from where it was put. -/
theorem readOffsetInfo_append {o : OffsetInfo} (hs : -2 ^ 31 ≤ o.size ∧ o.size < 2 ^ 31)
    (ho : -2 ^ 31 ≤ o.offset ∧ o.offset < 2 ^ 31) (a c : Bytes) :
    readOffsetInfo (a ++ encodeOffsetInfo o ++ c) a.length = .ok o := by
  have hlen : (8 : ℤ) = (encodeOffsetInfo o).length := by
    rw [length_encodeOffsetInfo]
    rfl
  rw [readOffsetInfo, decodeFixed64, slice_append rfl hlen, ok_bind, pure_eq_ok, ok_bind,
    encodeOffsetInfo, fixedValue_encodeFixed64 o.bits_lt, OffsetInfo.ofBits_bits hs ho, pure_eq_ok]

/-- Fields that are `int32_t` are read back as they are. -/
theorem readOffsetInfo_asInt32 (x y : ℤ) (a c : Bytes) :
    readOffsetInfo (a ++ encodeOffsetInfo ⟨asInt32 x, asInt32 y⟩ ++ c) a.length =
      .ok ⟨asInt32 x, asInt32 y⟩ := by
  have hx := asInt32_bounds x
  have hy := asInt32_bounds y
  refine readOffsetInfo_append ?_ ?_ a c
  · simpa only using hx
  · simpa only using hy

end Smallkv
