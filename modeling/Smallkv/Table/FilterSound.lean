import Smallkv.Table.Filter

/-!
# Table.FilterSound — a filter finds what was put into it

Making a filter only sets bits, and sets those that are tested for its keys. So
a filter that is made again, with whatever keys, still answers yes where it did
before (`Extends`).
-/

namespace Smallkv

open Fallible

namespace BloomFilter

/-! ## Bits -/

/-- The mask of a position is one bit. -/
theorem mask_ne_zero (pos : UInt32) : (1 : UInt8) <<< (pos % 8).toUInt8 ≠ 0 := by
  have hmask : ∀ k < 8, (1 : UInt8) <<< UInt8.ofNat k ≠ 0 := by decide
  have hlt : (pos % 8).toUInt8.toNat < 8 := by
    rw [UInt32.toNat_toUInt8, UInt32.toNat_mod]
    have hmod : pos.toNat % (8 : UInt32).toNat < 8 := Nat.mod_lt _ (by decide)
    omega
  have hne := hmask _ hlt
  rwa [UInt8.ofNat_toNat] at hne

theorem or_and_eq_zero (x y m : UInt8) : (x ||| y) &&& m = 0 ↔ x &&& m = 0 ∧ y &&& m = 0 := by
  have hdistrib : (x ||| y) &&& m = (x &&& m) ||| (y &&& m) := by
    rw [← UInt8.toBitVec_inj]
    exact BitVec.and_or_distrib_right
  rw [hdistrib, UInt8.or_eq_zero_iff]

@[simp] theorem length_setBit (bits : Bytes) (pos : UInt32) :
    (setBit bits pos).length = bits.length := by
  simp [setBit]

/-- What a byte is once a bit was set. -/
theorem getD_setBit (bits : Bytes) (pos : UInt32) (i : ℕ) :
    (setBit bits pos).getD i 0 =
      if (pos / 8).toNat = i ∧ i < bits.length then
        bits.getD i 0 ||| (1 <<< (pos % 8).toUInt8)
      else bits.getD i 0 := by
  rw [setBit, List.getD_eq_getElem?_getD, List.getD_eq_getElem?_getD, List.getElem?_modify]
  generalize (pos / 8).toNat = byte
  by_cases hi : i < bits.length
  · by_cases hbyte : byte = i
    · simp [hbyte, hi]
    · simp [hbyte]
  · simp [hi]

theorem testBit_setBit_self {bits : Bytes} {pos : UInt32} (h : (pos / 8).toNat < bits.length) :
    testBit (setBit bits pos) pos = true := by
  rw [testBit, getD_setBit, if_pos ⟨rfl, h⟩, decide_eq_true_iff, ne_eq, or_and_eq_zero,
    UInt8.and_self]
  exact fun hzero => mask_ne_zero pos hzero.2

/-- Setting a bit clears none. -/
theorem testBit_setBit {bits : Bytes} {p : UInt32} (h : testBit bits p = true) (pos : UInt32) :
    testBit (setBit bits pos) p = true := by
  rw [testBit, decide_eq_true_iff] at h
  rw [testBit, getD_setBit, decide_eq_true_iff]
  split
  · rw [ne_eq, or_and_eq_zero]
    exact fun hzero => h hzero.1
  · exact h

theorem length_foldl_setBit (ps : List UInt32) (bits : Bytes) :
    (ps.foldl setBit bits).length = bits.length := by
  induction ps generalizing bits with
  | nil => rfl
  | cons p ps ih => rw [List.foldl_cons, ih, length_setBit]

theorem testBit_foldl_setBit (ps : List UInt32) {bits : Bytes} {p : UInt32}
    (h : testBit bits p = true) : testBit (ps.foldl setBit bits) p = true := by
  induction ps generalizing bits with
  | nil => exact h
  | cons q ps ih => exact ih (testBit_setBit h q)

/-- After all of them are set each one is. -/
theorem testBit_foldl_setBit_mem {ps : List UInt32} {bits : Bytes}
    (hinside : ∀ p ∈ ps, (p / 8).toNat < bits.length) {p : UInt32} (hp : p ∈ ps) :
    testBit (ps.foldl setBit bits) p = true := by
  induction ps generalizing bits with
  | nil => cases hp
  | cons q ps ih =>
      rw [List.foldl_cons]
      rcases List.mem_cons.1 hp with rfl | hp
      · exact testBit_foldl_setBit ps (testBit_setBit_self (hinside p List.mem_cons_self))
      · refine ih ?_ hp
        intro r hr
        rw [length_setBit]
        exact hinside r (List.mem_cons_of_mem q hr)

/-! ## Filters -/

/-- An array that has bits, and not more than a `uint32_t` counts. -/
def Sized (f : BloomFilter) : Prop := 1 ≤ f.bitsArray.length ∧ f.bitsArray.length < 2 ^ 29

/-- The filter `g` has the shape of `f` and every bit of it. -/
structure Extends (f g : BloomFilter) : Prop where
  hashFuncNum_eq : g.hashFuncNum = f.hashFuncNum
  length_eq : g.bitsArray.length = f.bitsArray.length
  testBit_of : ∀ p, testBit f.bitsArray p = true → testBit g.bitsArray p = true

/-- All bits of the key are set. -/
def Marked (f : BloomFilter) (key : Bytes) : Prop :=
  ∀ p ∈ f.positions key, testBit f.bitsArray p = true

variable {f g : BloomFilter} {key : Bytes}

theorem Extends.refl (f : BloomFilter) : Extends f f := ⟨rfl, rfl, fun _ h => h⟩

theorem Extends.trans {k : BloomFilter} (h : Extends f g) (h' : Extends g k) : Extends f k where
  hashFuncNum_eq := h'.hashFuncNum_eq.trans h.hashFuncNum_eq
  length_eq := h'.length_eq.trans h.length_eq
  testBit_of := fun p hp => h'.testBit_of p (h.testBit_of p hp)

/-- Filters of one shape use the same positions. -/
theorem Extends.positions_eq (h : Extends f g) (key : Bytes) :
    g.positions key = f.positions key := by
  rw [positions, positions, h.hashFuncNum_eq, h.length_eq]

theorem Extends.sized (h : Extends f g) (hf : f.Sized) : g.Sized := by
  rwa [Sized, h.length_eq]

theorem Extends.marked (h : Extends f g) {key : Bytes} (hkey : f.Marked key) : g.Marked key := by
  intro p hp
  rw [h.positions_eq] at hp
  exact h.testBit_of p (hkey p hp)

theorem Sized.bits_ne_zero (h : f.Sized) : UInt32.ofNat (f.bitsArray.length * 8) ≠ 0 := by
  rcases h with ⟨hpos, hlt⟩
  intro hzero
  have hnat := congrArg UInt32.toNat hzero
  rw [UInt32.toNat_ofNat', UInt32.toNat_zero] at hnat
  omega

/-- Every position lies inside the array. -/
theorem Sized.inside (h : f.Sized) {key : Bytes} {p : UInt32} (hp : p ∈ f.positions key) :
    (p / 8).toNat < f.bitsArray.length := by
  have hsize : (UInt32.ofNat (f.bitsArray.length * 8)).toNat = f.bitsArray.length * 8 := by
    rw [UInt32.toNat_ofNat', Nat.mod_eq_of_lt]
    have := h.2
    omega
  have hpos := h.1
  simp only [positions, List.mem_map] at hp
  rcases hp with ⟨j, -, rfl⟩
  rw [UInt32.toNat_div, UInt32.toNat_mod, hsize]
  have hlt := Nat.mod_lt (murmurHash2 key + UInt32.ofNat j *
    (murmurHash2 key >>> 17 ||| murmurHash2 key <<< 15)).toNat
      (show f.bitsArray.length * 8 > 0 by omega)
  have h8 : (8 : UInt32).toNat = 8 := rfl
  rw [h8]
  omega

/-- Making a filter keeps what it has and marks the keys. -/
theorem createFilter_spec (h : f.Sized) (keys : List Bytes) :
    ∃ g, f.createFilter keys = .ok g ∧ Extends f g ∧ ∀ key ∈ keys, g.Marked key := by
  have hrun : f.createFilter keys =
      .ok { f with bitsArray := (keys.flatMap f.positions).foldl setBit f.bitsArray } := by
    rw [createFilter, require_of (Or.inr (Or.inr h.bits_ne_zero)), ok_bind, pure_eq_ok,
      List.foldl_flatMap]
  have hextends : Extends f
      { f with bitsArray := (keys.flatMap f.positions).foldl setBit f.bitsArray } :=
    { hashFuncNum_eq := rfl
      length_eq := length_foldl_setBit _ _
      testBit_of := fun p hp => testBit_foldl_setBit _ hp }
  refine ⟨_, hrun, hextends, ?_⟩
  intro key hkey p hp
  rw [hextends.positions_eq] at hp
  refine testBit_foldl_setBit_mem ?_ (List.mem_flatMap.2 ⟨key, hkey, hp⟩)
  intro q hq
  rcases List.mem_flatMap.1 hq with ⟨key', -, hq⟩
  exact h.inside hq

/-- A key whose bits are all set is answered with yes. -/
theorem Marked.exists_ (h : f.Marked key) (hf : f.Sized) (hkey : key ≠ []) :
    f.exists_ key = .ok true := by
  have hall : (f.positions key).all (testBit f.bitsArray) = true := List.all_eq_true.2 h
  rw [BloomFilter.exists_, if_neg hkey, require_of (Or.inr hf.bits_ne_zero), ok_bind, pure_eq_ok,
    hall]

/-- What later filters make of the bits does not matter. -/
theorem createFilters_spec (h : f.Sized) (batches : List (List Bytes)) :
    ∃ g, run createFilter f batches = .ok g ∧ Extends f g := by
  induction batches using List.reverseRecOn with
  | nil => exact ⟨f, rfl, Extends.refl f⟩
  | append_singleton batches keys ih =>
      rcases ih with ⟨g, hrun, hg⟩
      rcases createFilter_spec (hg.sized h) keys with ⟨k, hcreate, hk, -⟩
      exact ⟨k, run_concat_ok.2 ⟨g, hrun, hcreate⟩, hg.trans hk⟩

end BloomFilter

namespace FilterBlockBuilder

/-- A call on the builder. -/
inductive Call where
  | add (key : Bytes)
  | finish

def call (b : FilterBlockBuilder) : Call → Exec FilterBlockBuilder
  | .add key => pure (b.add key)
  | .finish => b.finishFilterBlock

/-- The key was added and the block finished behind it. -/
def Finished (calls : List Call) (key : Bytes) : Prop :=
  ∃ before after, calls = before ++ .finish :: after ∧ .add key ∈ before

/-- The filter answers yes for the keys, without leaving its array. -/
structure Sound (f : BloomFilter) (keys : Bytes → Prop) : Prop where
  inside : ∀ key, ∀ p ∈ f.positions key, (p / 8).toNat < f.bitsArray.length
  found : ∀ key, keys key → key ≠ [] → f.exists_ key = .ok true

/-- What a builder that started with the filter `f` has after some calls. -/
structure Inv (f : BloomFilter) (calls : List Call) (b : FilterBlockBuilder) : Prop where
  extends_ : f.Extends b.filterPolicy
  pending : ∀ key, .add key ∈ calls → key ≠ [] → key ∈ b.keyData
  marked : ∀ key, Finished calls key → key ≠ [] → b.filterPolicy.Marked key

/-- Adding a key finishes nothing. -/
theorem finished_concat_add {calls : List Call} {k key : Bytes}
    (h : Finished (calls ++ [.add k]) key) : Finished calls key := by
  rcases h with ⟨before, after, hcalls, hkey⟩
  rcases List.eq_nil_or_concat after with rfl | ⟨after, last, rfl⟩
  · have hlast := List.append_inj_right' hcalls rfl
    cases hlast
  · rw [List.concat_eq_append, ← List.cons_append, ← List.append_assoc] at hcalls
    exact ⟨before, after, List.append_inj_left' hcalls rfl, hkey⟩

theorem mem_of_finished {calls : List Call} {key : Bytes} (h : Finished calls key) :
    .add key ∈ calls := by
  rcases h with ⟨before, after, rfl, hkey⟩
  exact List.mem_append_left _ hkey

theorem call_inv {f : BloomFilter} (hf : f.Sized) {calls : List Call} {b : FilterBlockBuilder}
    (h : Inv f calls b) (c : Call) : ∃ b', b.call c = .ok b' ∧ Inv f (calls ++ [c]) b' := by
  cases c with
  | add k =>
      refine ⟨b.add k, rfl, ?_⟩
      have hpolicy : (b.add k).filterPolicy = b.filterPolicy := by
        unfold add
        split <;> rfl
      refine ⟨hpolicy ▸ h.extends_, ?_, ?_⟩
      · intro key hkey hne
        unfold add
        rcases List.mem_append.1 hkey with hkey | hkey
        · have hold := h.pending key hkey hne
          split
          · exact hold
          · exact List.mem_append_left _ hold
        · cases List.mem_singleton.1 hkey
          rw [if_neg hne]
          exact List.mem_append_right _ (List.mem_singleton.2 rfl)
      · intro key hkey hne
        rw [hpolicy]
        exact h.marked key (finished_concat_add hkey) hne
  | finish =>
      -- the filter is made of all keys so far, again or for the first time
      have hcreate : ∃ g, b.createFilter = .ok { b with filterPolicy := g } ∧
          b.filterPolicy.Extends g ∧ ∀ key ∈ b.keyData, g.Marked key := by
        by_cases hkeys : b.keyData = []
        · refine ⟨b.filterPolicy, ?_, BloomFilter.Extends.refl _, ?_⟩
          · rw [createFilter, if_pos hkeys]
            rfl
          · rw [hkeys]
            intro key hkey
            cases hkey
        · rcases BloomFilter.createFilter_spec (h.extends_.sized hf) b.keyData with
            ⟨g, hrun, hg, hmarked⟩
          refine ⟨g, ?_, hg, hmarked⟩
          rw [createFilter, if_neg hkeys, hrun, ok_bind, pure_eq_ok]
      rcases hcreate with ⟨g, hrun, hg, hmarked⟩
      refine ⟨_, by rw [call, finishFilterBlock, hrun, ok_bind, pure_eq_ok],
        h.extends_.trans hg, ?_, ?_⟩
      · intro key hkey hne
        rcases List.mem_append.1 hkey with hkey | hkey
        · exact h.pending key hkey hne
        · cases List.mem_singleton.1 hkey
      · intro key hkey hne
        rcases List.mem_append.1 (mem_of_finished hkey) with hkey | hkey
        · exact hmarked key (h.pending key hkey hne)
        · cases List.mem_singleton.1 hkey

theorem run_inv {f : BloomFilter} (hf : f.Sized) (calls : List Call) :
    ∃ b, run call ⟨f, [], []⟩ calls = .ok b ∧ Inv f calls b := by
  induction calls using List.reverseRecOn with
  | nil =>
      refine ⟨_, rfl, BloomFilter.Extends.refl f, ?_, ?_⟩
      · intro key hkey
        cases hkey
      · intro key hkey
        have hmem := mem_of_finished hkey
        cases hmem
  | append_singleton calls c ih =>
      rcases ih with ⟨b, hrun, h⟩
      rcases call_inv hf h c with ⟨b', hcall, h'⟩
      exact ⟨b', run_concat_ok.2 ⟨b, hrun, hcall⟩, h'⟩

theorem sound_of_marked {f : BloomFilter} (hf : f.Sized) {keys : Bytes → Prop}
    (h : ∀ key, keys key → key ≠ [] → f.Marked key) : Sound f keys where
  inside := fun _ _ hp => hf.inside hp
  found := fun key hkey hne => (h key hkey hne).exists_ hf hne

end FilterBlockBuilder

open FilterBlockBuilder

/-- For every array of bits and every number of hashes: whatever is added and
finished in however many rounds, every key that was added before a finish is
answered with yes, also after further filters were made over the same bits. -/
theorem filter_no_false_negative (f : BloomFilter) (hpos : 1 ≤ f.bitsArray.length)
    (hlt : f.bitsArray.length < 2 ^ 29) (calls : List FilterBlockBuilder.Call) :
    ∃ b, run call ⟨f, [], []⟩ calls = .ok b ∧
      (∀ key, Finished calls key → key ≠ [] → b.exists_ key = .ok true) ∧
      ∀ batches : List (List Bytes), ∃ g,
        run BloomFilter.createFilter b.filterPolicy batches = .ok g ∧
          Sound g (Finished calls) := by
  have hf : f.Sized := ⟨hpos, hlt⟩
  rcases run_inv hf calls with ⟨b, hrun, h⟩
  have hsized := h.extends_.sized hf
  refine ⟨b, hrun, (sound_of_marked hsized h.marked).found, ?_⟩
  intro batches
  rcases BloomFilter.createFilters_spec hsized batches with ⟨g, hbatches, hg⟩
  exact ⟨g, hbatches, sound_of_marked (hg.sized hsized) fun key hkey hne =>
    hg.marked (h.marked key hkey hne)⟩

/-- One byte of bits and three hashes. -/
theorem filter_no_false_negative_byte :
    ∃ b, run call ⟨⟨3, 8, [0]⟩, [], []⟩ [.add [97], .finish, .add [98]] = .ok b ∧
      (∀ key, Finished [.add [97], .finish, .add [98]] key → key ≠ [] →
        b.exists_ key = .ok true) ∧
      ∀ batches : List (List Bytes), ∃ g,
        run BloomFilter.createFilter b.filterPolicy batches = .ok g ∧
          Sound g (Finished [.add [97], .finish, .add [98]]) :=
  filter_no_false_negative ⟨3, 8, [0]⟩ (by decide) (by decide) _

end Smallkv
