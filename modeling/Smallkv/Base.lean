import Smallkv.Lib.Fallible

/-!
# Base — bytes, faults and fixed-width integers

The vocabulary every module of the model shares: byte strings in the order of
`std::string::compare`, the C string a `data()` pointer denotes, the ways an
execution can stop, and the conversions between the widths the code uses.
-/

namespace Smallkv

/-- How an execution stops early. -/
inductive Fault where
  /-- an `assert` does not hold -/
  | assertion
  /-- an exception that nobody catches -/
  | exception
  /-- a division by zero -/
  | trap
  /-- an index outside of an array -/
  | badIndex
  /-- an access outside an object: past a buffer, through null, or dangling -/
  | badAccess
  /-- a loop of the model was given too few iterations -/
  | endless
deriving DecidableEq, Repr

/-- A computation of the program: a result or the fault that ends it. -/
abbrev Exec := Except Fault

/-! ## Bytes -/

abbrev Byte := UInt8

abbrev Bytes := List Byte

/-- The bytes of a string literal. -/
def ascii (s : String) : Bytes := s.toList.map fun c => UInt8.ofNat c.toNat

/-- Bytes compare as unsigned characters, and `Bytes` inherits the
lexicographic order of `std::char_traits<char>::compare`. -/
instance instLinearOrderByte : LinearOrder UInt8 where
  le_refl := UInt8.le_refl
  le_trans _ _ _ := UInt8.le_trans
  lt_iff_le_not_ge a b := by
    simp only [UInt8.le_iff_toNat_le, UInt8.lt_iff_toNat_lt]
    omega
  le_antisymm _ _ := UInt8.le_antisymm
  le_total := UInt8.le_total
  toDecidableLE := inferInstance
  toDecidableEq := inferInstance
  toDecidableLT := inferInstance

/-- Every definition that looks for a byte in a string does so with this. -/
instance instLawfulBEqByte : LawfulBEq Byte := inferInstance

/-- The order of byte strings, deciding equality as lists do, so that a map
over an ordered key type and one over byte strings are the same map. -/
instance : LinearOrder Bytes where
  __ := (inferInstance : PartialOrder (List UInt8))
  le_total := le_total
  toDecidableLE := inferInstance
  toDecidableEq := inferInstance
  toDecidableLT := inferInstance
  min_def _ _ := rfl
  max_def _ _ := rfl
  compare a b := compareOfLessAndEq a b
  compare_eq_compareOfLessAndEq _ _ := rfl

/-- The template parameters of the containers are asked for their `size()`. -/
class HasSize (α : Type u) where
  size : α → ℕ

export HasSize (size)

instance : HasSize (List α) := ⟨List.length⟩

@[simp] theorem size_list (s : List α) : size s = s.length := rfl

/-- The string that a conversion from `s.data()` yields: `s` is a
`std::string`, so a NUL follows its last byte, and the conversion stops at the
first NUL it meets. -/
def cString (s : Bytes) : Bytes := s.takeWhile (· ≠ 0)

theorem zero_notMem_cString (s : Bytes) : 0 ∉ cString s := by
  intro h
  have hne := List.mem_takeWhile_imp h
  simp at hne

theorem cString_eq_self {s : Bytes} (h : 0 ∉ s) : cString s = s := by
  unfold cString
  rw [List.takeWhile_eq_self_iff]
  intro b hb
  have hne : b ≠ 0 := fun h0 => h (h0 ▸ hb)
  simpa using hne

@[simp] theorem cString_cString (s : Bytes) : cString (cString s) = cString s :=
  cString_eq_self (zero_notMem_cString s)

/-- A string that starts with a NUL-terminated part denotes that part. -/
theorem cString_append {a : Bytes} (h : 0 ∈ a) (b : Bytes) : cString (a ++ b) = cString a := by
  induction a with
  | nil => simp at h
  | cons c a ih =>
      rw [List.cons_append, cString, cString, List.takeWhile_cons, List.takeWhile_cons]
      by_cases hc : c = 0
      · simp [hc]
      · have ha : 0 ∈ a := (List.mem_cons.1 h).resolve_left fun h0 => hc h0.symm
        have htail : (a ++ b).takeWhile (· ≠ 0) = a.takeWhile (· ≠ 0) := ih ha
        rw [htail]

/-- `strlen` over a raw buffer: nothing promises a NUL behind it, so without
one inside the scan leaves the buffer. -/
def cStringOfBuffer (buf : Bytes) : Exec Bytes :=
  if 0 ∈ buf then .ok (cString buf) else .error .badAccess

/-! ## Fixed-width integers -/

/-- `static_cast<int32_t>`. -/
def asInt32 (x : ℤ) : ℤ := x.bmod (2 ^ 32)

/-- `static_cast<uint32_t>`. -/
def asUInt32 (x : ℤ) : ℕ := (x % 2 ^ 32).toNat

/-- A signed 64-bit value compared with a `size_t` is converted to it first. -/
def asSizeT (x : ℤ) : ℕ := (x % 2 ^ 64).toNat

theorem asInt32_of_lt {x : ℤ} (h0 : 0 ≤ x) (h : x < 2 ^ 31) : asInt32 x = x := by
  unfold asInt32
  rw [Int.bmod_eq_of_le] <;> omega

theorem asInt32_bounds (x : ℤ) : -2 ^ 31 ≤ asInt32 x ∧ asInt32 x < 2 ^ 31 := by
  have hle := Int.le_bmod (x := x) (m := 2 ^ 32) (by norm_num)
  have hlt := Int.bmod_lt (x := x) (m := 2 ^ 32) (by norm_num)
  unfold asInt32
  norm_num at hle hlt ⊢
  exact ⟨hle, hlt⟩

theorem asInt32_eq_iff {x : ℤ} (h0 : 0 ≤ x) : asInt32 x = x ↔ x < 2 ^ 31 := by
  constructor
  · intro h
    have hlt := (asInt32_bounds x).2
    omega
  · exact asInt32_of_lt h0

theorem asInt32_le_self (n : ℕ) : asInt32 n ≤ n := by
  unfold asInt32
  rw [Int.bmod_def]
  split <;> omega

/-- Sizes below 4 GiB keep their sign exactly below 2 GiB. -/
theorem asInt32_nonneg_iff {n : ℕ} (hn : n < 2 ^ 32) : 0 ≤ asInt32 n ↔ n < 2 ^ 31 := by
  unfold asInt32
  rw [Int.bmod_def]
  split <;> omega

theorem asInt32_pos_iff {n : ℕ} (hpos : 0 < n) (hn : n < 2 ^ 32) :
    0 < asInt32 n ↔ n < 2 ^ 31 := by
  constructor
  · intro h
    exact (asInt32_nonneg_iff hn).1 h.le
  · intro h
    rw [asInt32_of_lt (Int.natCast_nonneg n) (by omega)]
    omega

/-- A sum of `int32_t` that is wrapped around at every addition. -/
theorem asInt32_add (x y : ℤ) : asInt32 (asInt32 x + y) = asInt32 (x + y) :=
  Int.bmod_add_bmod

theorem asInt32_sub (x y : ℤ) : asInt32 (asInt32 x - asInt32 y) = asInt32 (x - y) := by
  unfold asInt32
  rw [Int.bmod_sub_bmod, Int.sub_bmod_bmod]

theorem asUInt32_lt (x : ℤ) : asUInt32 x < 2 ^ 32 := by
  unfold asUInt32
  omega

/-! ## Status -/

/-- What the calls of all components return. -/
structure DBStatus where
  code : ℤ
  errMsg : Bytes
deriving DecidableEq, Repr

namespace Status

def success : DBStatus := ⟨1, ascii "ExecStatus."⟩

def invalidArgs : DBStatus := ⟨2, ascii "Invalid args."⟩

def execFailed : DBStatus := ⟨3, ascii "Exec failed."⟩

def notFound : DBStatus := ⟨5, ascii "Key not found."⟩

end Status

end Smallkv
