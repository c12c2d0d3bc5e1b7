import Smallkv.Base

/-!
# Storage.Path — file names and the files they name

Paths are the strings the code concatenates. What file a path opens is found
by reading it from left to right against the working directory: empty parts
and "." stay, ".." goes up. Symbolic links are not followed, so two paths name
one file exactly when they are read to the same list of parts.
-/

namespace Smallkv

/-- `std::to_string`. -/
def decimal (n : ℕ) : Bytes := (Nat.toDigits 10 n).map fun c => UInt8.ofNat c.toNat

/-- `BuildSSTPath`: the `i`-th table of level `n`. -/
def buildSSTPath (n i : ℕ) : Bytes :=
  ascii "level_" ++ decimal n ++ ascii "_sst_" ++ decimal i ++ ascii ".sst"

/-- `'/'`. -/
def slash : Byte := 47

/-- A file, as the parts of its path from the root, last part first. -/
abbrev FileId := List Bytes

/-- One part of a path, read in a directory. -/
def descend (dir : FileId) (part : Bytes) : FileId :=
  if part = [] ∨ part = ascii "." then dir
  else if part = ascii ".." then dir.tail
  else part :: dir

/-- The file that a path names. -/
def resolve (cwd : FileId) (path : Bytes) : FileId :=
  (path.splitOn slash).foldl descend (if path.head? = some slash then [] else cwd)

/-! ## File names -/

theorem digit_lt {n : ℕ} {c : Char} (hc : c ∈ Nat.toDigits 10 n) :
    48 ≤ c.toNat ∧ c.toNat < 58 := by
  have hdigit := Nat.isDigit_of_mem_toDigits (by omega) (by omega) hc
  simp only [Char.isDigit, Bool.and_eq_true, decide_eq_true_eq, ge_iff_le] at hdigit
  rcases hdigit with ⟨hlow, hhigh⟩
  have h1 : (48 : UInt32).toNat ≤ c.val.toNat := UInt32.le_iff_toNat_le.1 hlow
  have h2 : c.val.toNat ≤ (57 : UInt32).toNat := UInt32.le_iff_toNat_le.1 hhigh
  exact ⟨h1, Nat.lt_succ_of_le h2⟩

theorem mem_decimal {n : ℕ} {b : Byte} (hb : b ∈ decimal n) : 48 ≤ b.toNat ∧ b.toNat < 58 := by
  rcases List.mem_map.1 hb with ⟨c, hc, rfl⟩
  have hlt := digit_lt hc
  have hval : (UInt8.ofNat c.toNat).toNat = c.toNat := by
    simp only [UInt8.toNat_ofNat']
    omega
  omega

theorem decimal_injective {m n : ℕ} (h : decimal m = decimal n) : m = n := by
  -- digits are below 256, so their bytes tell them apart
  have hinj : ∀ as bs : List Char, (∀ c ∈ as, 48 ≤ c.toNat ∧ c.toNat < 58) →
      (∀ c ∈ bs, 48 ≤ c.toNat ∧ c.toNat < 58) →
      (as.map fun c => UInt8.ofNat c.toNat) = (bs.map fun c => UInt8.ofNat c.toNat) →
      as = bs := by
    intro as
    induction as with
    | nil => simp
    | cons a as ih =>
        intro bs ha hb heq
        cases bs with
        | nil => simp at heq
        | cons b bs =>
            simp only [List.map_cons, List.cons.injEq] at heq
            have hab := congrArg UInt8.toNat heq.1
            simp only [UInt8.toNat_ofNat'] at hab
            have h1 := ha a (by simp)
            have h2 := hb b (by simp)
            have hchar : a = b := Char.toNat_inj.1 (by omega)
            rw [hchar, ih bs (fun c hc => ha c (by simp [hc])) (fun c hc => hb c (by simp [hc]))
              heq.2]
  have hdigits := hinj _ _ (fun _ => digit_lt) (fun _ => digit_lt) h
  exact Nat.repr_injective (by simp [Nat.repr, hdigits])

theorem buildSSTPath_injective {n i j : ℕ} (h : buildSSTPath n i = buildSSTPath n j) : i = j := by
  simp only [buildSSTPath, List.append_assoc, List.append_cancel_left_eq,
    List.append_cancel_right_eq] at h
  exact decimal_injective h

/-- A table's name is one part: it holds no separator and no NUL, and it is
none of the parts that a path reader treats specially. -/
theorem buildSSTPath_part (n i : ℕ) :
    slash ∉ buildSSTPath n i ∧ (0 : Byte) ∉ buildSSTPath n i ∧ buildSSTPath n i ≠ [] ∧
      buildSSTPath n i ≠ ascii "." ∧ buildSSTPath n i ≠ ascii ".." := by
  have hmem : ∀ b : Byte, (b = slash ∨ b = 0) → ∀ m, b ∉ decimal m := by
    rintro b hb m hmem
    have hdigit := mem_decimal hmem
    rcases hb with rfl | rfl
    · exact absurd hdigit.1 (by decide)
    · exact absurd hdigit.1 (by decide)
  -- neither the digits nor the letters of a name are separators or NUL
  have hletter : ∀ b : Byte, (b = slash ∨ b = 0) →
      b ∉ ascii "level_" ∧ b ∉ ascii "_sst_" ∧ b ∉ ascii ".sst" := by
    rintro b (rfl | rfl)
    · decide
    · decide
  have hnot : ∀ b : Byte, (b = slash ∨ b = 0) → b ∉ buildSSTPath n i := by
    intro b hb
    rcases hletter b hb with ⟨h1, h2, h3⟩
    simp only [buildSSTPath, List.mem_append, not_or]
    exact ⟨⟨⟨⟨h1, hmem b hb n⟩, h2⟩, hmem b hb i⟩, h3⟩
  have hlen : 6 ≤ (buildSSTPath n i).length := by
    simp only [buildSSTPath, List.length_append]
    have hlevel : (ascii "level_").length = 6 := by decide
    omega
  refine ⟨hnot slash (Or.inl rfl), hnot 0 (Or.inr rfl), ?_, ?_, ?_⟩
  · intro h
    simp [h] at hlen
  · intro h
    rw [h] at hlen
    exact absurd hlen (by decide)
  · intro h
    rw [h] at hlen
    exact absurd hlen (by decide)

/-! ## Paths of tables -/

/-- Behind a directory and a separator, a plain name is a file of the
directory. -/
theorem resolve_child (cwd : FileId) (dir : Bytes) {name : Bytes} (hslash : slash ∉ name)
    (hne : name ≠ []) (hdot : name ≠ ascii ".") (hdotdot : name ≠ ascii "..") :
    resolve cwd (dir ++ slash :: name) =
      name :: (dir.splitOn slash).foldl descend
        (if (dir ++ [slash]).head? = some slash then [] else cwd) := by
  have hhead : (dir ++ slash :: name).head? = (dir ++ [slash]).head? := by
    cases dir <;> rfl
  rw [resolve, List.splitOn_append_cons_self, List.splitOn_eq_singleton hslash, List.foldl_append,
    hhead]
  simp [descend, hne, hdot, hdotdot]

end Smallkv
