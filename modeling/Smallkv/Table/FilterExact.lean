import Smallkv.Table.FilterSound

/-!
# Table.FilterExact — the set that a filter is

An array of bits is a set of positions: setting a bit puts its position in, and
arrays of one length with the same positions in them are the same. A filter is
the set of the positions that its keys cover, so it answers yes for a key exactly
if the others cover what the key needs, and the order of the keys, repetitions and
the number of rounds leave no trace in the bits.
-/

namespace Smallkv

open Fallible

namespace BloomFilter

/-! ## Bits and bytes -/

/-- Masks of different bits have nothing in common. -/
theorem mask_and_mask {p q : UInt32} (h : p % 8 ≠ q % 8) :
    (1 : UInt8) <<< (p % 8).toUInt8 &&& 1 <<< (q % 8).toUInt8 = 0 := by
  have hall : ∀ i < 8, ∀ j < 8, i ≠ j →
      (1 : UInt8) <<< (UInt32.ofNat i).toUInt8 &&& 1 <<< (UInt32.ofNat j).toUInt8 = 0 := by decide
  have hofNat : ∀ r : UInt32, UInt32.ofNat (r % 8).toNat = r % 8 := fun r => UInt32.ofNat_toNat
  have hlt : ∀ r : UInt32, (r % 8).toNat < 8 := fun r => by
    rw [UInt32.toNat_mod]
    exact Nat.mod_lt _ (by decide)
  have hp := hall (p % 8).toNat (hlt p) (q % 8).toNat (hlt q) fun heq => h (UInt32.toNat_inj.1 heq)
  rwa [hofNat, hofNat] at hp

/-- A position is known from its byte and its place in it. -/
theorem eq_of_div_mod {p q : UInt32} (hdiv : (p / 8).toNat = (q / 8).toNat) (hmod : p % 8 = q % 8) :
    p = q := by
  have hm := congrArg UInt32.toNat hmod
  have h8 : (8 : UInt32).toNat = 8 := rfl
  rw [UInt32.toNat_div, UInt32.toNat_div, h8] at hdiv
  rw [UInt32.toNat_mod, UInt32.toNat_mod, h8] at hm
  apply UInt32.toNat_inj.1
  omega

/-- A byte is its eight bits. -/
theorem byte_ext {x y : UInt8}
    (h : ∀ i < 8, x &&& 1 <<< (UInt32.ofNat i).toUInt8 = 0 ↔ y &&& 1 <<< (UInt32.ofNat i).toUInt8 = 0) :
    x = y := by
  have hbit : ∀ b : BitVec 8, ∀ i : Fin 8,
      UInt8.ofBitVec b &&& 1 <<< (UInt32.ofNat i).toUInt8 = 0 ↔ b.getLsbD i = false := by decide
  apply UInt8.toBitVec_inj.1
  apply BitVec.eq_of_getLsbD_eq
  intro i hi
  have hx := hbit x.toBitVec ⟨i, hi⟩
  have hy := hbit y.toBitVec ⟨i, hi⟩
  have hxy := hx.symm.trans ((h i hi).trans hy)
  cases hxi : x.toBitVec.getLsbD i with
  | false => exact (hxy.1 hxi).symm
  | true =>
      cases hyi : y.toBitVec.getLsbD i with
      | true => rfl
      | false => rw [hxy.2 hyi] at hxi; cases hxi

/-! ## Arrays as sets -/

/-- Setting a bit puts one position in. -/
theorem testBit_setBit_iff {bits : Bytes} {p q : UInt32} (hp : (p / 8).toNat < bits.length) :
    testBit (setBit bits p) q = true ↔ testBit bits q = true ∨ p = q := by
  constructor
  · intro h
    by_cases hq : p = q
    · exact Or.inr hq
    refine Or.inl ?_
    rw [testBit, decide_eq_true_iff, getD_setBit] at h
    rw [testBit, decide_eq_true_iff]
    split at h
    · rename_i hbyte
      intro hzero
      apply h
      rw [or_and_eq_zero]
      -- in one byte the places differ
      exact ⟨hzero, mask_and_mask fun hmod => hq (eq_of_div_mod hbyte.1 hmod)⟩
    · exact h
  · rintro (h | rfl)
    · exact testBit_setBit h p
    · exact testBit_setBit_self hp

theorem testBit_foldl_setBit_iff {ps : List UInt32} {bits : Bytes}
    (hinside : ∀ p ∈ ps, (p / 8).toNat < bits.length) (q : UInt32) :
    testBit (ps.foldl setBit bits) q = true ↔ testBit bits q = true ∨ q ∈ ps := by
  induction ps generalizing bits with
  | nil => simp
  | cons p ps ih =>
      have hps : ∀ r ∈ ps, (r / 8).toNat < (setBit bits p).length := by
        intro r hr
        rw [length_setBit]
        exact hinside r (List.mem_cons_of_mem p hr)
      rw [List.foldl_cons, ih hps, testBit_setBit_iff (hinside p List.mem_cons_self),
        List.mem_cons, or_assoc, @eq_comm _ p q]

/-- No more than the positions that a `uint32_t` counts. -/
theorem bits_ext {bits bits' : Bytes} (hlen : bits.length = bits'.length)
    (hlt : bits.length < 2 ^ 29) (h : ∀ p, testBit bits p = true ↔ testBit bits' p = true) :
    bits = bits' := by
  apply List.ext_getElem hlen
  intro i hi hi'
  apply byte_ext
  intro j hj
  -- the position of bit `j` in byte `i`
  have hpos : (UInt32.ofNat (8 * i + j)).toNat = 8 * i + j := by
    rw [UInt32.toNat_ofNat', Nat.mod_eq_of_lt (by omega)]
  have h8 : (8 : UInt32).toNat = 8 := rfl
  have hbyte : (UInt32.ofNat (8 * i + j) / 8).toNat = i := by
    rw [UInt32.toNat_div, hpos, h8]
    omega
  have hplace : UInt32.ofNat (8 * i + j) % 8 = UInt32.ofNat j := by
    apply UInt32.toNat_inj.1
    rw [UInt32.toNat_mod, hpos, h8, UInt32.toNat_ofNat', Nat.mod_eq_of_lt (by omega : j < 2 ^ 32)]
    omega
  have hp := h (UInt32.ofNat (8 * i + j))
  rw [testBit, testBit, decide_eq_true_iff, decide_eq_true_iff, hbyte, hplace, ne_eq, ne_eq,
    not_iff_not, List.getD_eq_getElem _ _ hi, List.getD_eq_getElem _ _ hi'] at hp
  exact hp

/-! ## Filters as sets -/

variable {f : BloomFilter}

/-- What a filter has behind its keys. -/
theorem createFilter_covers (h : f.Sized) (keys : List Bytes) :
    ∃ g, f.createFilter keys = .ok g ∧ Extends f g ∧
      ∀ p, testBit g.bitsArray p = true ↔
        testBit f.bitsArray p = true ∨ ∃ key ∈ keys, p ∈ f.positions key := by
  rcases createFilter_spec h keys with ⟨g, hrun, hextends, -⟩
  refine ⟨g, hrun, hextends, ?_⟩
  have hbits : g.bitsArray = (keys.flatMap f.positions).foldl setBit f.bitsArray := by
    rw [createFilter, require_of (Or.inr (Or.inr h.bits_ne_zero)), ok_bind, pure_eq_ok,
      Except.ok.injEq] at hrun
    rw [← hrun, List.foldl_flatMap]
  intro p
  rw [hbits, testBit_foldl_setBit_iff, List.mem_flatMap]
  intro q hq
  rcases List.mem_flatMap.1 hq with ⟨key, -, hq⟩
  exact h.inside hq

theorem exists_eq (h : f.Sized) {key : Bytes} (hkey : key ≠ []) :
    f.exists_ key = .ok ((f.positions key).all (testBit f.bitsArray)) := by
  rw [BloomFilter.exists_, if_neg hkey, require_of (Or.inr h.bits_ne_zero), ok_bind, pure_eq_ok]

end BloomFilter

namespace FilterBlockBuilder

/-- The position is needed by a key that was added before a finish. -/
def Covered (f : BloomFilter) (calls : List Call) (p : UInt32) : Prop :=
  ∃ key, key ≠ [] ∧ Finished calls key ∧ p ∈ f.positions key

/-- A builder that started with the filter `f` is this set. -/
structure Covers (f : BloomFilter) (calls : List Call) (b : FilterBlockBuilder) : Prop where
  extends_ : f.Extends b.filterPolicy
  pending : ∀ key, key ∈ b.keyData ↔ .add key ∈ calls ∧ key ≠ []
  covered : ∀ p, BloomFilter.testBit b.filterPolicy.bitsArray p = true ↔ Covered f calls p

theorem finished_concat_add_iff {calls : List Call} {k key : Bytes} :
    Finished (calls ++ [.add k]) key ↔ Finished calls key := by
  constructor
  · exact finished_concat_add
  · rintro ⟨before, after, rfl, hkey⟩
    exact ⟨before, after ++ [.add k], by simp, hkey⟩

theorem finished_concat_finish_iff {calls : List Call} {key : Bytes} :
    Finished (calls ++ [.finish]) key ↔ .add key ∈ calls := by
  constructor
  · intro h
    rcases List.mem_append.1 (mem_of_finished h) with hmem | hmem
    · exact hmem
    · cases List.mem_singleton.1 hmem
  · intro h
    exact ⟨calls, [], rfl, h⟩

theorem Covers.add {f : BloomFilter} {calls : List Call} {b : FilterBlockBuilder}
    (h : Covers f calls b) (k : Bytes) : Covers f (calls ++ [.add k]) (b.add k) := by
  have hpolicy : (b.add k).filterPolicy = b.filterPolicy := by
    unfold FilterBlockBuilder.add
    split <;> rfl
  constructor
  · rw [hpolicy]
    exact h.extends_
  · intro key
    unfold FilterBlockBuilder.add
    by_cases hk : k = []
    · rw [if_pos hk, h.pending]
      constructor
      · rintro ⟨hmem, hne⟩
        exact ⟨List.mem_append_left _ hmem, hne⟩
      · rintro ⟨hmem, hne⟩
        rcases List.mem_append.1 hmem with hmem | hmem
        · exact ⟨hmem, hne⟩
        · cases List.mem_singleton.1 hmem
          exact absurd hk hne
    · rw [if_neg hk]
      simp only [List.mem_append, h.pending, List.mem_singleton, Call.add.injEq]
      constructor
      · rintro (⟨hmem, hne⟩ | rfl)
        · exact ⟨Or.inl hmem, hne⟩
        · exact ⟨Or.inr rfl, hk⟩
      · rintro ⟨hmem | heq, hne⟩
        · exact Or.inl ⟨hmem, hne⟩
        · exact Or.inr heq
  · intro p
    rw [hpolicy, h.covered]
    simp only [Covered, finished_concat_add_iff]

theorem Covers.finish {f : BloomFilter} (hf : f.Sized) {calls : List Call} {b : FilterBlockBuilder}
    (h : Covers f calls b) :
    ∃ b', b.finishFilterBlock = .ok b' ∧ Covers f (calls ++ [.finish]) b' := by
  have hpositions := h.extends_.positions_eq
  -- the positions of all keys so far, those of earlier rounds among them
  have hall : ∀ p, BloomFilter.testBit b.filterPolicy.bitsArray p = true ∨
      (∃ key ∈ b.keyData, p ∈ f.positions key) ↔ Covered f (calls ++ [.finish]) p := by
    intro p
    simp only [h.covered, h.pending, Covered, finished_concat_finish_iff]
    constructor
    · rintro (⟨key, hne, hfinished, hp⟩ | ⟨key, ⟨hmem, hne⟩, hp⟩)
      · exact ⟨key, hne, mem_of_finished hfinished, hp⟩
      · exact ⟨key, hne, hmem, hp⟩
    · rintro ⟨key, hne, hmem, hp⟩
      exact Or.inr ⟨key, ⟨hmem, hne⟩, hp⟩
  have hpending : ∀ key, key ∈ b.keyData ↔ .add key ∈ calls ++ [Call.finish] ∧ key ≠ [] := by
    intro key
    rw [h.pending]
    simp
  have hcreate : ∃ g, b.createFilter = .ok { b with filterPolicy := g } ∧ f.Extends g ∧
      ∀ p, BloomFilter.testBit g.bitsArray p = true ↔ Covered f (calls ++ [.finish]) p := by
    by_cases hkeys : b.keyData = []
    · refine ⟨b.filterPolicy, ?_, h.extends_, ?_⟩
      · rw [createFilter, if_pos hkeys]
        rfl
      · intro p
        rw [← hall, hkeys]
        simp
    · rcases BloomFilter.createFilter_covers (h.extends_.sized hf) b.keyData with
        ⟨g, hrun, hg, hcovers⟩
      refine ⟨g, ?_, h.extends_.trans hg, ?_⟩
      · rw [createFilter, if_neg hkeys, hrun, ok_bind, pure_eq_ok]
      · intro p
        rw [hcovers, ← hall]
        simp only [hpositions]
  rcases hcreate with ⟨g, hrun, hg, hcovers⟩
  have hfinish : b.finishFilterBlock =
      .ok ⟨g, b.keyData, g.bitsArray ++ encodeFixed32 (asUInt32 g.hashFuncNum)⟩ := by
    rw [finishFilterBlock, hrun, ok_bind, pure_eq_ok]
  exact ⟨_, hfinish, hg, hpending, hcovers⟩

theorem run_covers {f : BloomFilter} (hf : f.Sized) (hblank : ∀ x ∈ f.bitsArray, x = 0)
    (calls : List Call) : ∃ b, run call ⟨f, [], []⟩ calls = .ok b ∧ Covers f calls b := by
  induction calls using List.reverseRecOn with
  | nil =>
      refine ⟨_, rfl, BloomFilter.Extends.refl f, by simp, ?_⟩
      intro p
      have hzero : f.bitsArray.getD (p / 8).toNat 0 = 0 := by
        rw [List.getD_eq_getElem?_getD]
        cases hbyte : f.bitsArray[(p / 8).toNat]? with
        | none => rfl
        | some x => exact hblank x (List.mem_of_getElem? hbyte)
      refine iff_of_false ?_ ?_
      · rw [BloomFilter.testBit, decide_eq_true_iff, hzero, UInt8.zero_and]
        exact fun hne => hne rfl
      · rintro ⟨key, -, hfinished, -⟩
        have hmem := mem_of_finished hfinished
        cases hmem
  | append_singleton calls c ih =>
      rcases ih with ⟨b, hrun, h⟩
      cases c with
      | add key => exact ⟨b.add key, run_concat_ok.2 ⟨b, hrun, rfl⟩, h.add key⟩
      | finish =>
          rcases h.finish hf with ⟨b', hfinish, h'⟩
          exact ⟨b', run_concat_ok.2 ⟨b, hrun, hfinish⟩, h'⟩

end FilterBlockBuilder

open FilterBlockBuilder

/-- On an array of zeros, whatever is added and finished in however many rounds: the
filter answers yes exactly for the keys all of whose positions are covered by keys that
were added before a finish, and no for all others; and two filters have the same bits
exactly if the same positions are covered in both. -/
theorem filter_exact (f : BloomFilter) (hpos : 1 ≤ f.bitsArray.length)
    (hlt : f.bitsArray.length < 2 ^ 29) (hblank : ∀ x ∈ f.bitsArray, x = 0)
    (calls₁ calls₂ : List FilterBlockBuilder.Call) :
    ∃ b₁ b₂, run call ⟨f, [], []⟩ calls₁ = .ok b₁ ∧ run call ⟨f, [], []⟩ calls₂ = .ok b₂ ∧
      (∀ key, key ≠ [] →
        (b₁.exists_ key = .ok true ↔ ∀ p ∈ f.positions key, Covered f calls₁ p) ∧
        (b₁.exists_ key = .ok false ↔ ¬ ∀ p ∈ f.positions key, Covered f calls₁ p)) ∧
      (b₁.filterPolicy.bitsArray = b₂.filterPolicy.bitsArray ↔
        ∀ p, Covered f calls₁ p ↔ Covered f calls₂ p) := by
  have hf : f.Sized := ⟨hpos, hlt⟩
  rcases run_covers hf hblank calls₁ with ⟨b₁, hrun₁, h₁⟩
  rcases run_covers hf hblank calls₂ with ⟨b₂, hrun₂, h₂⟩
  refine ⟨b₁, b₂, hrun₁, hrun₂, ?_, ?_⟩
  · intro key hkey
    have hanswer : (b₁.filterPolicy.positions key).all
        (BloomFilter.testBit b₁.filterPolicy.bitsArray) = true ↔
          ∀ p ∈ f.positions key, Covered f calls₁ p := by
      rw [List.all_eq_true, h₁.extends_.positions_eq]
      simp only [h₁.covered]
    rw [FilterBlockBuilder.exists_, BloomFilter.exists_eq (h₁.extends_.sized hf) hkey,
      Except.ok.injEq, Except.ok.injEq, ← hanswer, Bool.not_eq_true]
    exact ⟨Iff.rfl, Iff.rfl⟩
  · constructor
    · intro heq p
      rw [← h₁.covered, ← h₂.covered, heq]
    · intro hsame
      apply BloomFilter.bits_ext
      · rw [h₁.extends_.length_eq, h₂.extends_.length_eq]
      · rw [h₁.extends_.length_eq]
        exact hlt
      · intro p
        rw [h₁.covered, h₂.covered, hsame]

/-- Three hashes on one byte; the same keys, added and finished otherwise. -/
theorem filter_exact_byte :
    ∃ b₁ b₂, run call ⟨⟨3, 8, [0]⟩, [], []⟩ [.add [97], .add [98], .finish] = .ok b₁ ∧
      run call ⟨⟨3, 8, [0]⟩, [], []⟩ [.add [98], .finish, .add [97], .add [98], .finish] = .ok b₂ ∧
      (∀ key, key ≠ [] →
        (b₁.exists_ key = .ok true ↔ ∀ p ∈ (⟨3, 8, [0]⟩ : BloomFilter).positions key,
          Covered ⟨3, 8, [0]⟩ [.add [97], .add [98], .finish] p) ∧
        (b₁.exists_ key = .ok false ↔ ¬ ∀ p ∈ (⟨3, 8, [0]⟩ : BloomFilter).positions key,
          Covered ⟨3, 8, [0]⟩ [.add [97], .add [98], .finish] p)) ∧
      (b₁.filterPolicy.bitsArray = b₂.filterPolicy.bitsArray ↔
        ∀ p, Covered ⟨3, 8, [0]⟩ [.add [97], .add [98], .finish] p ↔
          Covered ⟨3, 8, [0]⟩ [.add [98], .finish, .add [97], .add [98], .finish] p) :=
  filter_exact ⟨3, 8, [0]⟩ (by decide) (by decide) (by simp) _ _

end Smallkv
