import Smallkv.Table.Filling

/-!
# Table.Building — which tables get built

Additions get to their end exactly if every block that is cut off goes through
(`addAll_ok_iff`), and all of a build does if the filter and the index have a size,
too (`finishes_iff`). For pairs of less than 2 GiB altogether that leaves one
condition on the first record, one on the blocks and one on the index.
-/

namespace Smallkv

open Fallible

/-! ## Runs -/

theorem new_filling {fm : FloatMath} {keysNum : ℤ} {f : BloomFilter}
    (hfilter : BloomFilter.new fm keysNum = .ok f) (w : FileWriter) :
    ∃ b, SSTableBuilder.new fm keysNum w = .ok b ∧ Filling f keysNum [] b := by
  rw [SSTableBuilder.new, FilterBlockBuilder.new, hfilter]
  exact ⟨_, rfl, rfl, rfl, rfl, rfl, rfl, rfl, rfl⟩

section Runs

variable {entries : List (Bytes × Bytes)} {entry : Bytes × Bytes}

theorem lastKey_lt (hsorted : (entries ++ [entry]).Pairwise fun a b => a.1 < b.1)
    (hne : entries ≠ []) : lastKey entries < entry.1 := by
  rcases List.eq_nil_or_concat entries with rfl | ⟨es, e, rfl⟩
  · exact absurd rfl hne
  · rw [List.concat_eq_append] at hsorted ⊢
    rw [lastKey_concat]
    exact (List.pairwise_append.1 hsorted).2.2 e (by simp) entry (by simp)

/-- The additions get to their end exactly if every block that is cut off goes
through. -/
theorem addAll_ok_iff (hkeys : ∀ e ∈ entries, e.1 ≠ [])
    (hsorted : entries.Pairwise fun a b => a.1 < b.1) {f : BloomFilter} {keysNum : ℤ}
    {b : SSTableBuilder} (h : Filling f keysNum [] b) :
    ((∃ b', b.addAll entries = .ok b') ↔
        ∀ es e, es ++ [e] <+: entries → CutGoesThrough es e) ∧
      ∀ b', b.addAll entries = .ok b' → Filling f keysNum entries b' := by
  have hkeys' : ∀ es e, es ++ [e] <+: entries → ∀ e' ∈ es ++ [e], e'.1 ≠ [] :=
    fun es e hpre e' he' => hkeys e' (hpre.subset he')
  have hbehind : ∀ es e, es ++ [e] <+: entries → es ≠ [] → lastKey es < e.1 :=
    fun es e hpre => lastKey_lt (hsorted.sublist hpre.sublist)
  have hstep : ∀ es b e b', es ++ [e] <+: entries → Filling f keysNum es b →
      b.add e.1 e.2 = .ok b' → Filling f keysNum (es ++ [e]) b' :=
    fun es b e b' hpre hb hrun => hb.add_keeps (hkeys e (hpre.subset (by simp))) hrun
  constructor
  · exact run_ok_iff (Filling f keysNum) CutGoesThrough h hstep
      fun es b e hpre hb => hb.add_ok_iff (hkeys' es e hpre) (hbehind es e hpre)
  · intro b' hrun
    exact run_prefix_invariant (Filling f keysNum) h hstep hrun

/-- The first pair ends its block if its record is over the limit. -/
theorem cutsAt_nil_iff (hkey : entry.1 ≠ []) :
    CutsAt [] entry ↔ kMaxDataBlockSize < 12 + entry.1.length + entry.2.length := by
  have hspec : BlockSpec [entry] := by
    refine blockOf_spec ?_ (by simp)
    intro e he
    rwa [List.mem_singleton.1 he]
  have hsize : (blockOf [entry]).size = 12 + entry.1.length + entry.2.length := by
    rw [DataBlockBuilder.size, hspec.data]
    show (DataBlockBuilder.record true [] entry.1 entry.2 ++ []).length = _
    simp only [DataBlockBuilder.record, if_true, List.append_nil, List.length_append,
      length_encodeFixed32]
  rw [CutsAt, ← hsize]
  rfl

theorem indexSize_pos (hne : entries ≠ []) : 0 < indexSize entries := by
  rcases List.eq_nil_or_concat entries with rfl | ⟨es, e, rfl⟩
  · exact absurd rfl hne
  · rw [List.concat_eq_append, indexSize, cutsSize_concat, List.nil_append]
    by_cases hcut : CutsAt es e
    · rw [if_pos hcut]
      omega
    · rw [if_neg hcut, if_neg fun hnil => hcut (openBlock_concat_eq_nil.1 hnil)]
      omega

end Runs

/-! ## What can be built -/

/-- No block that is cut off outgrows an `int32_t`. -/
def CutsFit (entries : List (Bytes × Bytes)) : Prop :=
  ∀ es entry, es ++ [entry] <+: entries → CutsAt es entry →
    (blockOf (openBlock es ++ [entry])).finishDataBlock.data.length < 2 ^ 31

/-- The first record is within the limit on a block, and neither a block nor the
index outgrows an `int32_t`. -/
structure Buildable (entries : List (Bytes × Bytes)) : Prop where
  first : ∀ entry ∈ entries.head?, 12 + entry.1.length + entry.2.length ≤ kMaxDataBlockSize
  blocks : CutsFit entries
  index : indexSize entries < 2 ^ 31

/-- The keys that a separator is asked for are there, and in order. -/
def SeparatesInOrder (entries : List (Bytes × Bytes)) : Prop :=
  ∀ es entry, es ++ [entry] <+: entries → CutsAt es entry →
    lastKey es ≠ [] ∧ entry.1 ≠ [] ∧ lastKey es < entry.1

/-- A builder that is made for so many keys takes in all pairs and is finished. -/
def Finishes (fm : FloatMath) (keysNum : ℤ) (w : FileWriter) (entries : List (Bytes × Bytes)) :
    Prop :=
  ∃ b₀ b b', SSTableBuilder.new fm keysNum w = .ok b₀ ∧ b₀.addAll entries = .ok b ∧
    b.finishSst fm = .ok b'

theorem build_ok_iff {fm : FloatMath} {keysNum : ℤ} {entries : List (Bytes × Bytes)} :
    (∃ file, SSTableBuilder.build fm keysNum entries = .ok file) ↔
      Finishes fm keysNum (FileWriter.openFile []) entries := by
  constructor
  · rintro ⟨file, hrun⟩
    rcases SSTableBuilder.build_cases hrun with ⟨b₀, b, b', hnew, hadd, hfinish, -⟩
    exact ⟨b₀, b, b', hnew, hadd, hfinish⟩
  · rintro ⟨b₀, b, b', hnew, hadd, hfinish⟩
    exact ⟨b'.fileWriter.file, by simp [SSTableBuilder.build, hnew, hadd, hfinish]⟩

/-- The builder gets to its end, and all separators that it asks for can be made. -/
structure BuildsThrough (fm : FloatMath) (keysNum : ℤ) (w : FileWriter)
    (entries : List (Bytes × Bytes)) : Prop where
  finishes : Finishes fm keysNum w entries
  separates : SeparatesInOrder entries

section Sorted

variable {entries : List (Bytes × Bytes)}

/-- Of pairs in order, only a first record over the limit leaves `find_shortest_key`
without a key. -/
theorem separatesInOrder_iff (hkeys : ∀ entry ∈ entries, entry.1 ≠ [])
    (hsorted : entries.Pairwise fun a b => a.1 < b.1) :
    SeparatesInOrder entries ↔
      ∀ entry ∈ entries.head?, 12 + entry.1.length + entry.2.length ≤ kMaxDataBlockSize := by
  constructor
  · intro h entry hhead
    have hpre : [] ++ [entry] <+: entries := by
      rcases List.head?_eq_some_iff.1 hhead with ⟨rest, rfl⟩
      exact ⟨rest, rfl⟩
    by_contra hover
    have hcut := (cutsAt_nil_iff (hkeys entry (hpre.subset (by simp)))).2 (not_le.1 hover)
    exact (h [] entry hpre hcut).1 rfl
  · intro hfirst es entry hpre hcut
    have hentry : entry ∈ entries := hpre.subset (by simp)
    have hne : es ≠ [] := by
      rintro rfl
      have hhead : entry ∈ entries.head? := by
        rcases hpre with ⟨rest, rfl⟩
        rfl
      exact absurd (hfirst entry hhead) (not_le.2 ((cutsAt_nil_iff (hkeys entry hentry)).1 hcut))
    exact ⟨lastKey_ne_nil (fun e he => hkeys e (hpre.subset (by simp [he]))) hne,
      hkeys entry hentry, lastKey_lt (hsorted.sublist hpre.sublist) hne⟩

/-- With records of less than 2 GiB, a block that goes through is one that fits. -/
theorem cutGoesThrough_iff (hkeys : ∀ entry ∈ entries, entry.1 ≠ [])
    (hsorted : entries.Pairwise fun a b => a.1 < b.1)
    (hlen : ∀ entry ∈ entries, entry.1.length + entry.2.length < 2 ^ 31) :
    (∀ es entry, es ++ [entry] <+: entries → CutGoesThrough es entry) ↔
      SeparatesInOrder entries ∧ CutsFit entries := by
  have hsize : ∀ es entry, es ++ [entry] <+: entries →
      (0 ≤ Plan.blockSize (openBlock es ++ [entry]) ↔
        (blockOf (openBlock es ++ [entry])).finishDataBlock.data.length < 2 ^ 31) := by
    intro es entry hpre
    have hentry : entry ∈ entries := hpre.subset (by simp)
    have hfront : ∀ e ∈ es, e.1 ≠ [] := fun e he => hkeys e (hpre.subset (by simp [he]))
    have hspec := openBlock_spec hfront
    have hspec' := SSTableBuilder.blockSpec_concat hspec (openBlock_small es)
      (openBlock_keys hfront) (hkeys entry hentry)
    exact asInt32_nonneg_iff (SSTableBuilder.block_length_lt hspec (openBlock_small es) hspec'
      (hlen entry hentry))
  constructor
  · intro h
    constructor
    · intro es entry hpre hcut
      have hne := (h es entry hpre hcut).1
      exact ⟨lastKey_ne_nil (fun e he => hkeys e (hpre.subset (by simp [he]))) hne,
        hkeys entry (hpre.subset (by simp)), lastKey_lt (hsorted.sublist hpre.sublist) hne⟩
    · intro es entry hpre hcut
      exact (hsize es entry hpre).1 (h es entry hpre hcut).2
  · rintro ⟨hseparates, hfit⟩ es entry hpre hcut
    refine ⟨?_, (hsize es entry hpre).2 (hfit es entry hpre hcut)⟩
    rintro rfl
    exact (hseparates [] entry hpre hcut).1 rfl

/-- A builder gets to its end exactly if there are keys for it to count and to
separate, and blocks and index have a size. -/
theorem finishes_iff (hkeys : ∀ entry ∈ entries, entry.1 ≠ [])
    (hsorted : entries.Pairwise fun a b => a.1 < b.1)
    {fm : FloatMath} {keysNum : ℤ} (hfm : fm.InRange keysNum) (w : FileWriter)
    (hlen : ∀ entry ∈ entries, entry.1.length + entry.2.length < 2 ^ 31) :
    Finishes fm keysNum w entries ↔
      0 < keysNum ∧ SeparatesInOrder entries ∧ CutsFit entries ∧
        0 < asInt32 (indexSize entries) := by
  constructor
  · rintro ⟨b₀, b, b', hb₀, hadd, hfinish⟩
    rcases bind_eq_ok.1 hb₀ with ⟨_, hnew, -⟩
    rcases bind_eq_ok.1 hnew with ⟨f, hf, -⟩
    rcases new_filling hf w with ⟨b₁, hb₁, hstart⟩
    obtain rfl : b₀ = b₁ := Except.ok.inj (hb₀.symm.trans hb₁)
    rcases addAll_ok_iff hkeys hsorted hstart with ⟨hadds, hfilling⟩
    have hthrough := (cutGoesThrough_iff hkeys hsorted hlen).1 (hadds.1 ⟨b, hadd⟩)
    have hindex := SSTableBuilder.finishSst_index hkeys (hfilling b hadd) hfinish
    have hne : entries ≠ [] := by
      rintro rfl
      exact absurd hindex (by decide)
    refine ⟨?_, hthrough.1, hthrough.2, hindex⟩
    by_contra hnum
    exact SSTableBuilder.finishSst_nonpos hfm hnum hf hne hkeys (hfilling b hadd) hfinish
  · rintro ⟨hnum, hseparates, hfit, hindex⟩
    rcases BloomFilter.new_progress hfm hnum with ⟨f, hnew, hf⟩
    rcases new_filling hnew w with ⟨b₀, hb₀, hstart⟩
    rcases addAll_ok_iff hkeys hsorted hstart with ⟨hadds, hfilling⟩
    rcases hadds.2 ((cutGoesThrough_iff hkeys hsorted hlen).2 ⟨hseparates, hfit⟩) with ⟨b, hadd⟩
    rcases SSTableBuilder.finishSst_progress hnew hf hkeys (hfilling b hadd) hindex with
      ⟨b', hfinish⟩
    exact ⟨b₀, b, b', hb₀, hadd, hfinish⟩

end Sorted

end Smallkv
