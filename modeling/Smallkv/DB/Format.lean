import Smallkv.DB.Tiers

/-!
# DB.Format — formats that tables can be trusted to

Where a result is not about the encoding of tables it is stated for every
`Faithful` format. `plainFormat`, the pairs one after the other, is one, and
`plainHost` is a host to run it on.
-/

namespace Smallkv

open Fallible Assoc PrefixCode

/-- What was built is read back. As at the end of `FindKeyInDB`, a key with an
empty value is answered like a key that is not there. -/
structure SstFormat.Faithful (sst : SstFormat) : Prop where
  seek : ∀ {entries bytes}, entries.Pairwise (fun a b => a.1 < b.1) →
    sst.build (asInt32 entries.length) entries = .ok bytes →
      ∀ key, sst.seek bytes key = .ok ((toMap entries key).filter (· ≠ []))

/-- `key_len(4B) | key | val_len(4B) | val`. -/
def pairBytes (pair : Bytes × Bytes) : Bytes :=
  encodeFixed32 pair.1.length ++ pair.1 ++ encodeFixed32 pair.2.length ++ pair.2

def plainFormat : SstFormat where
  build _ entries := do
    require .assertion (∀ pair ∈ entries, pair.1.length < 2 ^ 32 ∧ pair.2.length < 2 ^ 32)
    pure (encodeAll (fun _ => pairBytes) (fun _ _ => ()) () entries)
  seek content key := do
    let entries ← orFail .badAccess (decodeAll (fun _ => takeKV) (fun _ _ => ()) () content)
    pure ((toMap entries key).filter (· ≠ []))

theorem plainFormat_faithful : plainFormat.Faithful := by
  constructor
  intro entries bytes _ hbuild key
  rcases bind_eq_ok.1 hbuild with ⟨u, hcheck, hbuild⟩
  cases hbuild
  have hdecode : decodeAll (fun _ => takeKV) (fun _ _ => ()) ()
      (encodeAll (fun _ => pairBytes) (fun _ _ => ()) () entries) = some entries := by
    refine decodeAll_encodeAll ?_ ?_ () (require_eq_ok.1 hcheck)
    · intro _ pair rest hpair
      exact takeKV_append hpair.1 hpair.2 rest
    · intro _ pair hnil
      simp [pairBytes, encodeFixed32, encodeFixed] at hnil
  simp only [plainFormat, hdecode, orFail_some, ok_bind, pure_eq_ok]

/-- A host without a checksum, with one shard, in the root directory. -/
def plainHost : Host := ⟨fun _ => 0, fun _ => 0, []⟩

/-- A store without a cache that turns a memtable of two bytes into a table. -/
def tinyOptions (storageDir : Bytes) (hdir : 0 ∉ storageDir) : Options where
  storageDir := storageDir
  memTableMaxSize := 2
  cacheSize := 0
  storageDir_nulFree := hdir

end Smallkv
