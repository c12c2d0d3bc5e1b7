import Smallkv.Table.FilterSound
import Smallkv.Table.Layout

/-!
# Table.FilterFinish — finishing a filter block twice

`finish_sst` finishes its filter block, takes the size of the result, and finishes
it again before it writes it. The bits of the keys are set a second time, which
changes nothing: setting bits commutes, and a bit that is set stays as it is. The
number of hashes is put behind a copy of the bits, so there is one of it.
-/

namespace Smallkv

open Fallible

/-! ## Repeating a fold -/

section Fold

variable {α : Type u} {β : Type v} {f : β → α → β}

/-- What a fold does to the elements of its list is done for good. -/
theorem foldl_absorbs (hcomm : ∀ b x y, f (f b x) y = f (f b y) x)
    (hself : ∀ b x, f (f b x) x = f b x) (l : List α) {x : α} (hx : x ∈ l) (b : β) :
    f (l.foldl f b) x = l.foldl f b := by
  induction l using List.reverseRecOn with
  | nil => cases hx
  | append_singleton l y ih =>
      rw [List.foldl_append, List.foldl_cons, List.foldl_nil]
      rcases List.mem_append.1 hx with hx | hx
      · rw [hcomm, ih hx]
      · obtain rfl : x = y := List.mem_singleton.1 hx
        exact hself _ x

/-- Commuting steps that do nothing the second time can be repeated as a whole. -/
theorem foldl_twice (hcomm : ∀ b x y, f (f b x) y = f (f b y) x)
    (hself : ∀ b x, f (f b x) x = f b x) (l : List α) (b : β) :
    l.foldl f (l.foldl f b) = l.foldl f b := by
  have hfixed : ∀ l' ⊆ l, l'.foldl f (l.foldl f b) = l.foldl f b := by
    intro l' hsub
    induction l' with
    | nil => rfl
    | cons x l' ih =>
        rw [List.cons_subset] at hsub
        rw [List.foldl_cons, foldl_absorbs hcomm hself l hsub.1]
        exact ih hsub.2
  exact hfixed l (List.Subset.refl l)

end Fold

/-! ## Setting bits -/

namespace BloomFilter

theorem getElem?_setBit (bits : Bytes) (p : UInt32) (i : ℕ) : (setBit bits p)[i]? =
    bits[i]?.map fun x => if (p / 8).toNat = i then x ||| 1 <<< (p % 8).toUInt8 else x := by
  rw [setBit, List.getElem?_modify]
  rfl

theorem setBit_comm (bits : Bytes) (p q : UInt32) :
    setBit (setBit bits p) q = setBit (setBit bits q) p := by
  apply List.ext_getElem?
  intro i
  rw [getElem?_setBit, getElem?_setBit, getElem?_setBit, getElem?_setBit]
  cases bits[i]? with
  | none => rfl
  | some x =>
      simp only [Option.map_some, Option.some.injEq]
      -- the order matters at most where both bits are in this byte
      split
      · split
        · rw [UInt8.or_assoc, UInt8.or_comm (_ <<< _), ← UInt8.or_assoc]
        · rfl
      · rfl

theorem setBit_setBit (bits : Bytes) (p : UInt32) :
    setBit (setBit bits p) p = setBit bits p := by
  apply List.ext_getElem?
  intro i
  rw [getElem?_setBit, getElem?_setBit]
  cases bits[i]? with
  | none => rfl
  | some x =>
      simp only [Option.map_some, Option.some.injEq]
      split
      · rw [UInt8.or_assoc, UInt8.or_self]
      · rfl

/-- A filter that was made of some keys does not change when it is made of them
again. -/
theorem createFilter_again {f g : BloomFilter} {keys : List Bytes}
    (h : f.createFilter keys = .ok g) : g.createFilter keys = .ok g := by
  have hbits : ∀ (k : BloomFilter) (bits : Bytes),
      keys.foldl (fun bits key => (k.positions key).foldl setBit bits) bits =
        (keys.flatMap k.positions).foldl setBit bits := by
    intro k bits
    rw [List.foldl_flatMap]
  have hlen := createFilter_length h
  rcases bind_eq_ok.1 h with ⟨_, hguard, hg⟩
  rw [pure_eq_ok, Except.ok.injEq, hbits] at hg
  subst hg
  -- the positions of a key depend on the shape only
  have hpositions : ({ f with bitsArray := (keys.flatMap f.positions).foldl setBit f.bitsArray } :
      BloomFilter).positions = f.positions := by
    funext key
    rw [positions, positions, hlen]
  rw [createFilter, hlen, require_of (require_eq_ok.1 hguard), ok_bind, pure_eq_ok, hbits, hpositions]
  simp only [foldl_twice setBit_comm setBit_setBit]

end BloomFilter

namespace FilterBlockBuilder

/-- What is written is the filter and the number of hashes. -/
theorem finishFilterBlock_again {b b' : FilterBlockBuilder} (h : b.finishFilterBlock = .ok b') :
    b'.finishFilterBlock = .ok b' := by
  rcases finishFilterBlock_ok h with ⟨policy, hcreate, rfl⟩
  have hagain := BloomFilter.createFilter_again hcreate
  rw [finishFilterBlock, createFilter]
  by_cases hkeys : b.keyData = []
  · rw [if_pos hkeys]
    rfl
  · rw [if_neg hkeys, hagain]
    rfl

end FilterBlockBuilder

open FilterBlockBuilder

/-- For every array of 1 to 2^29 - 1 bytes, every number of hashes and whatever keys
were added: the block can be finished, is then the bits with one number of hashes
behind them, and finishing it once more changes nothing. -/
theorem finish_idempotent (f : BloomFilter) (hpos : 1 ≤ f.bitsArray.length)
    (hlt : f.bitsArray.length < 2 ^ 29) (keys : List Bytes) :
    ∃ b, (keys.foldl add ⟨f, [], []⟩).finishFilterBlock = .ok b ∧
      b.finishFilterBlock = .ok b ∧
      b.data = b.filterPolicy.bitsArray ++ encodeFixed32 (asUInt32 f.hashFuncNum) ∧
      b.filterPolicy.bitsArray.length = f.bitsArray.length := by
  have hpolicy : ∀ (b : FilterBlockBuilder), (keys.foldl add b).filterPolicy = b.filterPolicy := by
    induction keys with
    | nil => exact fun _ => rfl
    | cons key keys ih =>
        intro b
        rw [List.foldl_cons, ih]
        unfold add
        split <;> rfl
  obtain ⟨b, hb⟩ : ∃ b, keys.foldl add ⟨f, [], []⟩ = b := ⟨_, rfl⟩
  have hf : b.filterPolicy = f := by
    rw [← hb, hpolicy]
  have hsized : b.filterPolicy.Sized := by
    rw [hf]
    exact ⟨hpos, hlt⟩
  rcases finishFilterBlock_progress hsized b.keyData b.data with ⟨g, hfinish, -⟩
  rcases finishFilterBlock_ok hfinish with ⟨g', hcreate, hg'⟩
  obtain rfl : g = g' := congrArg filterPolicy hg'
  have hg : g.hashFuncNum = f.hashFuncNum ∧ g.bitsArray.length = f.bitsArray.length := by
    rw [← hf]
    refine ⟨?_, BloomFilter.createFilter_length hcreate⟩
    rcases bind_eq_ok.1 hcreate with ⟨_, -, hcreate⟩
    cases hcreate
    rfl
  refine ⟨_, by rw [hb]; exact hfinish, finishFilterBlock_again hfinish, ?_, hg.2⟩
  rw [← hg.1]
  rfl

/-- One byte of bits and three hashes, of two keys. -/
theorem finish_idempotent_byte :
    ∃ b, ([[97], [98]].foldl add ⟨⟨3, 8, [0]⟩, [], []⟩).finishFilterBlock = .ok b ∧
      b.finishFilterBlock = .ok b ∧
      b.data = b.filterPolicy.bitsArray ++ encodeFixed32 (asUInt32 3) ∧
      b.filterPolicy.bitsArray.length = [(0 : Byte)].length :=
  finish_idempotent ⟨3, 8, [0]⟩ (by decide) (by decide) [[97], [98]]

end Smallkv
