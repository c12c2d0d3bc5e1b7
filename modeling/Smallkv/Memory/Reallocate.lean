import Smallkv.Memory.PoolArithmetic

/-!
# Memory.Reallocate — what becomes of the contents of a block

`Reallocate` gives the block back before it takes a new one, and copies nothing.
Giving back a small block writes a link into its first word, and a large block is
freed; in both cases the allocator is blind to what was in the first word. So no
block keeps its contents whatever they are (`not_keepsContents`). Bytes are read
out of words: `rep` says how the machine stores one.
-/

namespace Smallkv

open Fallible Regions FreeListAllocate

namespace FreeListAllocate

/-- `Reallocate` -/
def reallocate (s : FreeListAllocate) (p : Option Addr) (oldSize newSize : ℤ) :
    Exec (FreeListAllocate × Option Addr) := do
  let s ← s.deallocate p oldSize
  -- the old block is not looked at any more
  s.allocate newSize

/-! ## A word in freed memory -/

/-- The address is in a chunk that was freed. -/
def Dead (s : FreeListAllocate) (x : Addr) : Prop := s.heap.chunks[x.chunk]? = some 0

/-- The allocator with another word at an address. -/
def withWord (x : Addr) (w : Option Addr) (s : FreeListAllocate) : FreeListAllocate :=
  { s with heap.next := Function.update s.heap.next x w }

@[simp] theorem withWord_next (x : Addr) (w : Option Addr) (s : FreeListAllocate) :
    (s.withWord x w).heap.next = Function.update s.heap.next x w := rfl

@[simp] theorem withWord_memorySlot (x : Addr) (w : Option Addr) (s : FreeListAllocate) :
    (s.withWord x w).memorySlot = s.memorySlot := rfl

variable {s s' : FreeListAllocate} {x : Addr} {w : Option Addr} {i : Fin kSlotNum}

theorem Dead.ne_of_valid (h : Dead s x) {a : Addr} (ha : s.heap.Valid a) : a ≠ x := by
  rintro rfl
  rcases ha with ⟨hoffset, n, hn, hend⟩
  rw [Option.mem_def, h, Option.some.injEq] at hn
  omega

/-- The step does not look at the word, leaves it, and leaves the chunk freed. -/
structure Blind (x : Addr) (w : Option Addr)
    (step : FreeListAllocate → Exec FreeListAllocate) : Prop where
  commutes : ∀ s, Dead s x → step (s.withWord x w) = (step s).map (withWord x w)
  dead : ∀ s s', Dead s x → step s = .ok s' → Dead s' x

theorem Blind.ok : Blind x w .ok where
  commutes := fun _ _ => rfl
  dead := by
    intro s s' h hrun
    cases hrun
    exact h

theorem Blind.bind {f g : FreeListAllocate → Exec FreeListAllocate} (hf : Blind x w f)
    (hg : Blind x w g) : Blind x w fun s => f s >>= g where
  commutes := by
    intro s h
    rw [hf.commutes s h]
    cases hrun : f s with
    | error e => rfl
    | ok t => exact hg.commutes t (hf.dead s t h hrun)
  dead := by
    intro s s' h hrun
    rcases bind_eq_ok.1 hrun with ⟨t, ht, hrun⟩
    exact hg.dead t s' (hf.dead s t h ht) hrun

theorem Blind.run {ι : Type} {step : FreeListAllocate → ι → Exec FreeListAllocate}
    (hstep : ∀ a, Blind x w fun s => step s a) (as : List ι) :
    Blind x w fun s => Fallible.run step s as := by
  induction as with
  | nil => exact .ok
  | cons a as ih => exact (hstep a).bind ih

/-- `p->next = q`, where the pointers are read off the allocator. -/
theorem blind_write {p q : FreeListAllocate → Option Addr}
    (hp : ∀ s, p (s.withWord x w) = p s) (hq : ∀ s, q (s.withWord x w) = q s) :
    Blind x w fun s => s.heap.writeNext (p s) (q s) >>= fun heap => .ok { s with heap := heap } where
  commutes := by
    intro s h
    simp only [hp, hq]
    cases hps : p s with
    | none => rfl
    | some a =>
        have hsame : (s.withWord x w).heap.Valid a ↔ s.heap.Valid a := Iff.rfl
        by_cases hvalid : s.heap.Valid a
        · -- the word that is written is another one
          have hcomm := Function.update_comm (h.ne_of_valid hvalid) (q s) w s.heap.next
          simp only [Heap.writeNext, orFail_some, ok_bind, require_of hvalid,
            require_of (hsame.2 hvalid)]
          simp only [withWord, pure_eq_ok, ok_bind, Except.map, hcomm]
        · simp only [Heap.writeNext, orFail_some, ok_bind, require, hsame, hvalid, if_false]
          rfl
  dead := by
    intro s s' h hrun
    rcases bind_eq_ok.1 hrun with ⟨heap, hwrite, hrun⟩
    cases hrun
    rcases writeNext_ok hwrite with ⟨a, -, -, rfl⟩
    exact h

/-- A change of the other parts of the allocator, with more chunks or not. -/
theorem blind_pure {f : FreeListAllocate → FreeListAllocate}
    (hf : ∀ s, f (s.withWord x w) = (f s).withWord x w)
    (hchunks : ∀ s, s.heap.chunks <+: (f s).heap.chunks) : Blind x w fun s => .ok (f s) where
  commutes := by
    intro s _
    simp only [hf, Except.map]
  dead := by
    intro s s' h hrun
    cases hrun
    have hlt := (List.getElem?_eq_some_iff.1 h).1
    rcases hchunks s with ⟨more, hmore⟩
    rw [Dead, ← hmore, List.getElem?_append_left hlt]
    exact h

/-- A choice that depends on what is not in the heap. -/
theorem Blind.read {α : Type} {v : FreeListAllocate → Exec α}
    {f : α → FreeListAllocate → Exec FreeListAllocate} (hv : ∀ s, v (s.withWord x w) = v s)
    (hf : ∀ a, Blind x w (f a)) : Blind x w fun s => v s >>= fun a => f a s where
  commutes := by
    intro s h
    simp only [hv]
    cases v s with
    | error e => rfl
    | ok a => exact (hf a).commutes s h
  dead := by
    intro s s' h hrun
    rcases bind_eq_ok.1 hrun with ⟨a, -, hrun⟩
    exact (hf a).dead s s' h hrun

theorem Blind.ite {c : FreeListAllocate → Prop} [DecidablePred c]
    {f g : FreeListAllocate → Exec FreeListAllocate} (hc : ∀ s, c (s.withWord x w) ↔ c s)
    (hf : Blind x w f) (hg : Blind x w g) : Blind x w fun s => if c s then f s else g s where
  commutes := by
    intro s h
    simp only [hc]
    split
    · exact hf.commutes s h
    · exact hg.commutes s h
  dead := by
    intro s s' h hrun
    split at hrun
    · exact hf.dead s s' h hrun
    · exact hg.dead s s' h hrun

theorem blind_mount (i : Fin kSlotNum) {p : FreeListAllocate → Option Addr}
    (hp : ∀ (s : FreeListAllocate) (heap : Heap), p { s with heap := heap } = p s) :
    Blind x w fun s => s.mount i (p s) := by
  have hwrite : Blind x w fun s => s.heap.writeNext (p s) (s.memorySlot i) >>= fun heap =>
      .ok { s with heap := heap } :=
    blind_write (q := fun s => s.memorySlot i) (fun s => hp s _) fun _ => rfl
  have hslot : Blind x w fun s => .ok { s with memorySlot := Function.update s.memorySlot i (p s) } := by
    apply blind_pure
    · intro s
      have hsame : p (s.withWord x w) = p s := hp s _
      simp only [hsame]
      rfl
    · intro s
      exact List.prefix_refl _
  convert hwrite.bind hslot using 2 with s
  rw [mount]
  cases s.heap.writeNext (p s) (s.memorySlot i) with
  | error e => rfl
  | ok heap =>
      simp only [ok_bind, hp]
      rfl

theorem blind_mountFromPool (i : Fin kSlotNum) (n : ℕ) :
    Blind x w fun s => mountFromPool i s n := by
  have hmount : Blind x w fun s =>
      s.mount i (s.memPoolStart.map fun a => a.shift (n * blockSize i)) :=
    blind_mount (p := fun s => s.memPoolStart.map fun a => a.shift (n * blockSize i)) i
      fun _ _ => rfl
  by_cases hn : n = 0
  · have hend : Blind x w fun s =>
        s.heap.writeNext (s.memPoolStart.map fun a => a.shift (n * blockSize i)) none >>=
          fun heap => .ok { s with heap := heap } :=
      blind_write (p := fun s => s.memPoolStart.map fun a => a.shift (n * blockSize i))
        (q := fun _ => none) (fun _ => rfl) fun _ => rfl
    convert hend.bind hmount using 2 with s
    rw [mountFromPool, endList, if_pos hn]
    cases s.heap.writeNext (s.memPoolStart.map fun a => a.shift (n * blockSize i)) none with
    | error e => rfl
    | ok heap => rfl
  · convert hmount using 2 with s
    rw [mountFromPool, endList, if_neg hn]
    rfl

theorem blind_takeFromPool (i : Fin kSlotNum) (cnt : ℕ) :
    Blind x w fun s => s.takeFromPool i cnt := by
  apply (Blind.run (blind_mountFromPool i) (List.range cnt)).bind
  apply blind_pure
  · intro s
    rfl
  · intro s
    exact List.prefix_refl _

theorem blind_recycle : Blind x w recycle := by
  apply Blind.ite
  · intro s
    exact Iff.rfl
  · apply Blind.read
    · intro s
      rfl
    · intro target
      have hnode : Blind x w fun s => s.heap.writeNext s.memPoolStart (s.memorySlot target) >>=
          fun heap => .ok { s with heap := heap } :=
        blind_write (p := memPoolStart) (q := fun s => s.memorySlot target) (fun _ => rfl)
          fun _ => rfl
      have hhead : Blind x w fun s => s.heap.writeNext (s.memorySlot target) s.memPoolStart >>=
          fun heap => .ok { s with heap := heap } :=
        blind_write (p := fun s => s.memorySlot target) (q := memPoolStart) (fun _ => rfl)
          fun _ => rfl
      have hend : Blind x w fun s => .ok { s with memPoolStart := none, memPoolSize := 0 } := by
        apply blind_pure
        · intro s
          rfl
        · intro s
          exact List.prefix_refl _
      convert (hnode.bind hhead).bind hend using 2 with s
      cases hwrite : s.heap.writeNext s.memPoolStart (s.memorySlot target) with
      | error e => simp only [hwrite, error_bind]
      | ok heap =>
          simp only [hwrite, ok_bind]
          cases heap.writeNext (s.memorySlot target) s.memPoolStart with
          | error e => rfl
          | ok heap' => rfl
  · exact .ok

theorem blind_fillSlot (i : Fin kSlotNum) (fuel : ℕ) : Blind x w fun s => fillSlot fuel s i := by
  induction fuel with
  | zero =>
      constructor
      · intro s _
        rfl
      · intro s s' _ hrun
        cases hrun
  | succ fuel ih =>
      have hnew : Blind x w fun s => fillSlot fuel s.fillMemPool i := by
        refine (blind_pure (f := fillMemPool) ?_ ?_).bind ih
        · intro s
          rfl
        · intro s
          exact List.prefix_append _ _
      apply Blind.ite
      · intro s
        exact Iff.rfl
      · exact blind_takeFromPool i kFillBlockCnt
      apply Blind.ite
      · intro s
        exact Iff.rfl
      · constructor
        · intro s h
          exact (blind_takeFromPool i _).commutes s h
        · intro s s' h hrun
          exact (blind_takeFromPool (w := w) i _).dead s s' h hrun
      · apply Blind.read
        · intro s
          rfl
        · intro _
          exact blind_recycle.bind hnew

/-- `Allocate` is blind to the word, and hands out another place. -/
theorem Dead.allocate (h : Dead s x) {n : ℤ} {a : Addr} (hrun : s.allocate n = .ok (s', some a)) :
    (s.withWord x w).allocate n = .ok (s'.withWord x w, some a) ∧ a ≠ x := by
  unfold FreeListAllocate.allocate at hrun ⊢
  split at hrun
  · cases hrun
  rename_i hpos
  rw [if_neg hpos]
  split at hrun
  · rename_i hlarge
    cases hrun
    rw [if_pos hlarge]
    refine ⟨rfl, ?_⟩
    -- a new chunk is not the freed one
    rintro rfl
    have hlt := (List.getElem?_eq_some_iff.1 h).1
    exact absurd hlt (lt_irrefl _)
  rename_i hsmall
  rw [if_neg hsmall]
  rcases bind_eq_ok.1 hrun with ⟨i, hslot, hrun⟩
  rcases bind_eq_ok.1 hrun with ⟨t, hfill, hrun⟩
  rcases bind_eq_ok.1 hrun with ⟨next, hread, hrun⟩
  have hblind : Blind x w fun s => s.fillIfEmpty i :=
    Blind.ite (fun _ => Iff.rfl) (blind_fillSlot i 2) .ok
  have hfill' : (s.withWord x w).fillIfEmpty i = .ok (t.withWord x w) := by
    rw [hblind.commutes s h, hfill]
    rfl
  have hdead := hblind.dead s t h hfill
  simp only [pure_eq_ok, Except.ok.injEq, Prod.mk.injEq] at hrun
  rcases hrun with ⟨rfl, hhead⟩
  -- the block that is taken is in a chunk that is still there
  rw [hhead] at hread
  rcases bind_eq_ok.1 hread with ⟨a', ha', hread⟩
  rcases bind_eq_ok.1 hread with ⟨_, hvalid, hread⟩
  cases ha'
  cases hread
  rw [require_eq_ok] at hvalid
  have hne := hdead.ne_of_valid hvalid
  refine ⟨?_, hne⟩
  have hread' : (t.withWord x w).heap.readNext (some a) = .ok (t.heap.next a) := by
    have hsame : (t.withWord x w).heap.Valid a := hvalid
    rw [Heap.readNext, orFail_some, ok_bind, require_of hsame, ok_bind, pure_eq_ok,
      withWord_next, Function.update_of_ne hne]
  rw [hslot, ok_bind, hfill', ok_bind]
  simp only [withWord_memorySlot, hhead, hread', ok_bind, pure_eq_ok]
  rfl

/-- Giving a small block back writes to its first word. -/
theorem mount_withWord (i : Fin kSlotNum) (x : Addr) (w : Option Addr) :
    (s.withWord x w).mount i (some x) = s.mount i (some x) := by
  have hsame : (s.withWord x w).heap.Valid x ↔ s.heap.Valid x := Iff.rfl
  unfold mount Heap.writeNext
  rw [orFail_some, ok_bind, ok_bind]
  by_cases hvalid : s.heap.Valid x
  · rw [require_of hvalid, require_of (hsame.2 hvalid)]
    simp only [ok_bind, pure_eq_ok, withWord, Function.update_idem]
  · simp only [require, hsame, hvalid, if_false]
    rfl

/-- The first word of a block that is given back is lost: the call returns the same
block whatever the word was, and the same word is in it. -/
theorem reallocate_withWord {n newSize : ℤ} {a : Addr} (hn : 1 ≤ n)
    (hrun : s.reallocate (some x) n newSize = .ok (s', some a)) (w : Option Addr) :
    ∃ t, (s.withWord x w).reallocate (some x) n newSize = .ok (t, some a) ∧
      t.heap.next a = s'.heap.next a := by
  rcases bind_eq_ok.1 hrun with ⟨t, hfree, hcall⟩
  rw [deallocate_eq hn] at hfree
  unfold reallocate
  rw [deallocate_eq hn]
  split at hfree
  · rename_i hlarge
    rw [if_pos hlarge]
    rcases bind_eq_ok.1 hfree with ⟨heap, hheap, hfree⟩
    cases hfree
    rcases bind_eq_ok.1 hheap with ⟨_, hbegin, hheap⟩
    cases hheap
    rw [require_eq_ok] at hbegin
    -- from here on the word is in freed memory
    have hdead : Dead { s with heap.chunks := s.heap.chunks.set x.chunk 0 } x :=
      List.getElem?_set_self hbegin.2
    rcases hdead.allocate (w := w) hcall with ⟨hcall', hne⟩
    refine ⟨s'.withWord x w, ?_, Function.update_of_ne hne _ _⟩
    have hbegin' : x.offset = 0 ∧ x.chunk < (s.withWord x w).heap.chunks.length := hbegin
    rw [Heap.free, require_of hbegin']
    exact hcall'
  · rename_i hsmall
    rw [if_neg hsmall]
    rcases bind_eq_ok.1 hfree with ⟨i, hslot, hfree⟩
    -- both runs are in the same state once the link was written
    refine ⟨s', ?_, rfl⟩
    rw [hslot, ok_bind, mount_withWord, hfree, ok_bind]
    exact hcall

end FreeListAllocate

/-! ## Contents -/

namespace Client

/-- Byte `k` behind an address, where `rep` are the bytes of a word. -/
def byteAt (rep : Option Addr → Fin 8 → Byte) (next : Addr → Option Addr) (a : Addr) (k : ℕ) :
    Byte :=
  rep (next (a.shift (8 * (k / 8 : ℕ)))) ⟨k % 8, Nat.mod_lt k (by decide)⟩

/-- Whatever was written to the block: `Reallocate` returns one that begins with the
same bytes, as many of them as both have, and no byte of another block is changed. -/
def KeepsContents (rep : Option Addr → Fin 8 → Byte) (s : Client) (i : ℕ) (newSize : ℤ) : Prop :=
  ∀ b words, s.live[i]? = some b →
    let before := b.store words s.alloc.heap.next
    ∃ alloc a,
      { s.alloc with heap.next := before }.reallocate (some b.addr) b.n newSize =
          .ok (alloc, some a) ∧
        (∀ k : ℕ, k < min b.n newSize →
          byteAt rep alloc.heap.next a k = byteAt rep before b.addr k) ∧
        ∀ c ∈ s.live.eraseIdx i, ∀ k : ℕ, k < c.n →
          byteAt rep alloc.heap.next c.addr k = byteAt rep before c.addr k

variable {s t : Client}

theorem byteAt_zero (rep : Option Addr → Fin 8 → Byte) (next : Addr → Option Addr) (a : Addr) :
    byteAt rep next a 0 = rep (next a) 0 := by
  unfold byteAt
  simp [Addr.shift]

theorem meets_addr {b : Block} (hn : 1 ≤ b.n) : b.Meets b.addr := by
  have hindex : 1 ≤ (b.n + 7).tdiv 8 := by
    rw [Int.tdiv_eq_ediv_of_nonneg (by omega)]
    omega
  refine ⟨rfl, by omega, ?_⟩
  unfold Block.region getIndex
  simp only
  omega

theorem store_addr {b : Block} (hn : 1 ≤ b.n) (words next : Addr → Option Addr) :
    b.store words next b.addr = words b.addr :=
  if_pos (meets_addr hn)

/-- Another first word of a block. -/
theorem store_update {b : Block} (hn : 1 ≤ b.n) (words next : Addr → Option Addr)
    (w : Option Addr) :
    b.store (Function.update words b.addr w) next = Function.update (b.store words next) b.addr w := by
  funext a
  by_cases ha : a = b.addr
  · subst ha
    rw [store_addr hn, Function.update_self, Function.update_self]
  · simp only [Block.store, Function.update_of_ne ha]

end Client

open Client

/-- For every state that calls lead to, every block in use and every new size:
`Reallocate` does not keep what is in the block, whatever was written to it. -/
theorem not_keepsContents (rep : Option Addr → Fin 8 → Byte) (hrep : ∃ v w, rep v 0 ≠ rep w 0)
    (words : Addr → Option Addr) (ops : List Client.Op) (s : Client) (i : ℕ) (b : Block)
    (newSize : ℤ) (hrun : run step (start words) ops = .ok s) (hlive : s.live[i]? = some b)
    (hsize : 0 < newSize) : ¬ KeepsContents rep s i newSize := by
  rcases hrep with ⟨v, w, hvw⟩
  have hn := (sized_of_run hrun).live b (List.mem_of_getElem? hlive)
  have hpos : ((0 : ℕ) : ℤ) < min b.n newSize := by
    rw [lt_min_iff]
    omega
  intro hkeeps
  rcases hkeeps b (fun _ => v) hlive with ⟨alloc, a, hcall, hbytes, -⟩
  rcases hkeeps b (Function.update (fun _ => v) b.addr w) hlive with ⟨alloc', a', hcall', hbytes', -⟩
  -- the two contents differ in the first word only
  rcases reallocate_withWord hn hcall w with ⟨t, ht, hnext⟩
  have hstore := store_update hn (fun _ => v) s.alloc.heap.next w
  have hcall'' := ht
  simp only [withWord, ← hstore] at hcall''
  cases Except.ok.inj (hcall''.symm.trans hcall')
  have hv := hbytes 0 hpos
  have hw := hbytes' 0 hpos
  rw [byteAt_zero, byteAt_zero, store_addr hn] at hv hw
  rw [Function.update_self, hnext, hv] at hw
  exact hvw hw

/-- Bytes of a word that tell a null pointer from the others. -/
def Client.nullBytes (v : Option Addr) (_ : Fin 8) : Byte := if v = none then 0 else 1

theorem not_keepsContents_large :
    ∃ s, run step (start fun _ => none) [.allocate 5000] = .ok s ∧
      ¬ KeepsContents nullBytes s 0 16 :=
  ⟨⟨⟨fun _ => none, some ⟨0, 0⟩, kChunkSize, ⟨fun _ => none, [kChunkSize, 5000]⟩⟩, [⟨⟨1, 0⟩, 5000⟩]⟩,
    rfl, not_keepsContents nullBytes ⟨none, some ⟨0, 0⟩, by decide⟩ (fun _ => none) [.allocate 5000] _
      0 ⟨⟨1, 0⟩, 5000⟩ 16 rfl rfl (by norm_num)⟩

/-! ## A block that grows inside its slot -/

namespace Client

/-- The first byte behind a `Reallocate`, of a block that was filled with zeros. -/
def firstByte (s : Client) (newSize : ℤ) : Option Byte :=
  match s.live[0]? with
  | none => none
  | some b =>
    match { s.alloc with heap.next := b.store (fun _ => none) s.alloc.heap.next }.reallocate
        (some b.addr) b.n newSize with
    | .ok (alloc, some a) => some (byteAt nullBytes alloc.heap.next a 0)
    | _ => none

theorem not_keepsContents_of_firstByte {s : Client} {newSize : ℤ} (hpos : ∀ b ∈ s.live, 1 ≤ b.n)
    (hsize : 0 < newSize) (h : s.firstByte newSize = some 1) :
    ¬ KeepsContents nullBytes s 0 newSize := by
  unfold firstByte at h
  split at h
  · cases h
  · rename_i b hlive
    have hn := hpos b (List.mem_of_getElem? hlive)
    intro hkeeps
    rcases hkeeps b (fun _ => none) hlive with ⟨alloc, a, hcall, hbytes, -⟩
    have hzero := hbytes 0 (by rw [lt_min_iff]; omega)
    rw [byteAt_zero nullBytes (b.store _ _), store_addr hn] at hzero
    simp only [hcall, hzero] at h
    cases h

end Client

/-- A block of 4 bytes that is to have 8 bytes stays where it is, and begins with a
pointer to the next block of its slot. -/
theorem grown_block_overwritten :
    ∃ s, run step (start fun _ => none) [.allocate 4] = .ok s ∧
      ¬ KeepsContents nullBytes s 0 8 := by
  have hrun : (run step (start fun _ => none) [.allocate 4] >>= fun s => pure (s.firstByte 8)) =
      .ok (some 1) := by decide +kernel
  rcases bind_eq_ok.1 hrun with ⟨s, hs, hbyte⟩
  exact ⟨s, hs, not_keepsContents_of_firstByte (sized_of_run hs).live (by norm_num) (Except.ok.inj hbyte)⟩

end Smallkv
