import Smallkv.MemTable.MemTable
import Smallkv.Table.SSTParser

/-!
# MemTable.Flush — a memtable written out as a table

`ConvertToL1SST` walks the bottom list and feeds the table builder. What the
builder sees of a memtable is the map the table represents: its pairs in key
order, and how many there are. Towers, and the writes that led to the map, leave
no trace in the file.
-/

namespace Smallkv

open Fallible Assoc

namespace MemTable

variable (fm : FloatMath)

/-- `ConvertToL1SST`. -/
def convertToL1SST (t : MemTable) (sstableBuilder : SSTableBuilder) : Exec SSTableBuilder := do
  let entries ← t.entries
  let sstableBuilder ← sstableBuilder.addAll entries
  sstableBuilder.finishSst fm

/-- What a builder that was made for `GetSize()` keys leaves in a new file. -/
def sstFile (t : MemTable) : Exec Bytes := do
  let sstableBuilder ← SSTableBuilder.new fm t.getSize (FileWriter.openFile [])
  let sstableBuilder ← t.convertToL1SST fm sstableBuilder
  pure sstableBuilder.fileWriter.file

theorem sstFile_eq_build {t : MemTable} {entries : List (Bytes × Bytes)}
    (hentries : t.entries = .ok entries) :
    t.sstFile fm = SSTableBuilder.build fm t.getSize entries := by
  unfold MemTable.sstFile convertToL1SST SSTableBuilder.build
  rw [hentries]
  simp only [ok_bind, bind_assoc]

/-- The file is made of the pairs of the map and of their number. -/
theorem Represents.sstFile {t : MemTable} {m : Bytes → Option Bytes} (h : Represents t m) :
    ∃ l, l.Pairwise (fun a b => a.1 < b.1) ∧ toMap l = m ∧
      t.sstFile fm = SSTableBuilder.build fm (asInt32 l.length) l := by
  rcases h.entries with ⟨l, hentries, hsorted, hmap, hsize, -⟩
  exact ⟨l, hsorted, hmap, by rw [sstFile_eq_build fm hentries, hsize]⟩

/-- Memtables that represent one map are written out alike. -/
theorem Represents.sstFile_eq {t₁ t₂ : MemTable} {m : Bytes → Option Bytes}
    (h₁ : Represents t₁ m) (h₂ : Represents t₂ m) : t₁.sstFile fm = t₂.sstFile fm := by
  rcases h₁.sstFile fm with ⟨l₁, hsorted₁, hmap₁, hfile₁⟩
  rcases h₂.sstFile fm with ⟨l₂, hsorted₂, hmap₂, hfile₂⟩
  have hl : l₁ = l₂ := eq_of_toMap_eq hsorted₁ hsorted₂ (hmap₁.trans hmap₂.symm)
  rw [hfile₁, hfile₂, hl]

/-- A run of NUL-free writes leaves nothing in the file but what the lookups
of the memtable answer: two runs, whatever their writes and their coin flips,
after which every key reads the same are written out to the same bytes, or both
abort. -/
theorem sstFile_history_independent (fm : FloatMath) {ops₁ ops₂ : List Op} {t₁ t₂ : MemTable}
    (hnul₁ : ∀ op ∈ ops₁, op.NulFree) (hnul₂ : ∀ op ∈ ops₂, op.NulFree)
    (hrun₁ : run step new ops₁ = .ok t₁) (hrun₂ : run step new ops₂ = .ok t₂)
    (hsame : ∀ key, 0 ∉ key → t₁.get key = t₂.get key) :
    t₁.sstFile fm = t₂.sstFile fm := by
  rcases run_spec hnul₁ with ⟨t₁', hrun₁', hrep₁⟩
  obtain rfl : t₁ = t₁' := Except.ok.inj (hrun₁.symm.trans hrun₁')
  rcases run_spec hnul₂ with ⟨t₂', hrun₂', hrep₂⟩
  obtain rfl : t₂ = t₂' := Except.ok.inj (hrun₂.symm.trans hrun₂')
  have hmap : mapAfter ops₁ = mapAfter ops₂ := by
    funext key
    by_cases hkey : 0 ∈ key
    · rw [mapAfter_of_nul hnul₁ hkey, mapAfter_of_nul hnul₂ hkey]
    · have hget := hsame key hkey
      rw [hrep₁.get, hrep₂.get, cString_eq_self hkey] at hget
      exact Except.ok.inj hget
  rw [hmap] at hrep₁
  exact hrep₁.sstFile_eq fm hrep₂

/-- A key added at once and one that got its value by an update, in a tower of
another height. -/
theorem sstFile_history_independent_update :
    ∃ t₁ t₂, run step new [.add [] [97] [120]] = .ok t₁ ∧
      run step new [.add [true] [97] [121], .update [false] [97] [120]] = .ok t₂ ∧
      t₁.sstFile decimalMath = t₂.sstFile decimalMath := by
  have hnul₁ : ∀ op ∈ [Op.add [] [97] [120]], op.NulFree := by
    simp [Op.NulFree, Op.key, Op.written]
  have hnul₂ : ∀ op ∈ [Op.add [true] [97] [121], .update [false] [97] [120]], op.NulFree := by
    simp [Op.NulFree, Op.key, Op.written]
  rcases run_spec hnul₁ with ⟨t₁, hrun₁, hrep₁⟩
  rcases run_spec hnul₂ with ⟨t₂, hrun₂, hrep₂⟩
  refine ⟨t₁, t₂, hrun₁, hrun₂, ?_⟩
  apply sstFile_history_independent decimalMath hnul₁ hnul₂ hrun₁ hrun₂
  intro key _
  rw [hrep₁.get, hrep₂.get]
  simp [mapAfter, writeMap, insertMap, Op.opType, Op.key, Op.written]

end MemTable

end Smallkv
