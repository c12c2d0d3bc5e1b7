import Smallkv.Storage.Codec

/-!
# Table.Filter — the hash, the Bloom filter and its block

The sizes of a Bloom filter come from two floating-point expressions of the
number of keys, which are parameters here (`FloatMath`). Everything else is
computed as the code computes it.
-/

namespace Smallkv

open Fallible

/-! ## MurmurHash2 -/

namespace Murmur

def seed : UInt32 := 0xbc451d34

def m : UInt32 := 0x5bd1e995

def r : UInt32 := 24

/-- Mix four bytes at a time into the hash; what is left over is returned. -/
def mix : UInt32 → Bytes → UInt32 × Bytes
  | h, a :: b :: c :: d :: data =>
    let k := a.toUInt32 ||| (b.toUInt32 <<< 8) ||| (c.toUInt32 <<< 16) ||| (d.toUInt32 <<< 24)
    let k := k * m
    let k := k ^^^ (k >>> r)
    let k := k * m
    mix ((h * m) ^^^ k) data
  | h, data => (h, data)

/-- The `switch` over the bytes left, which falls through. -/
def mixTail (h : UInt32) : Bytes → UInt32
  | [a] => (h ^^^ a.toUInt32) * m
  | [a, b] => (h ^^^ (b.toUInt32 <<< 8) ^^^ a.toUInt32) * m
  | [a, b, c] => (h ^^^ (c.toUInt32 <<< 16) ^^^ (b.toUInt32 <<< 8) ^^^ a.toUInt32) * m
  | _ => h

end Murmur

/-- `murmur_hash2(key, len)`; callers pass the length of the key. -/
def murmurHash2 (key : Bytes) : UInt32 :=
  let len := UInt32.ofNat key.length
  let (h, rest) := Murmur.mix (Murmur.seed ^^^ len) (key.take len.toNat)
  let h := Murmur.mixTail h rest
  let h := h ^^^ (h >>> 13)
  let h := h * Murmur.m
  h ^^^ (h >>> 15)

/-! ## BloomFilter -/

/-- The two expressions that are evaluated in `double`, for the default false
positive rate. -/
structure FloatMath where
  /-- `static_cast<int32_t>(std::log(false_positive) * keys_num / 0.4804530139182014)` -/
  bitsNum : ℤ → ℤ
  /-- `static_cast<int32_t>(0.6931471805599453 * bits_per_key)` -/
  hashNum : ℤ → ℤ

structure BloomFilter where
  hashFuncNum : ℤ
  bitsPerKey : ℤ
  bitsArray : Bytes
deriving DecidableEq, Repr

namespace BloomFilter

def empty : BloomFilter := ⟨0, 0, []⟩

def new (fm : FloatMath) (keysNum : ℤ) : Exec BloomFilter := do
  let bitsNum := -1 * fm.bitsNum keysNum
  let bytes := (bitsNum + 7).tdiv 8
  -- `resize` to a negative size throws
  require .exception (0 ≤ bytes)
  let bitsArray := List.replicate bytes.toNat 0
  let bitsNum : ℤ := bitsArray.length * 8
  require .trap (keysNum ≠ 0)
  let bitsPerKey := bitsNum.tdiv keysNum
  let hashFuncNum := fm.hashNum bitsPerKey
  -- between 1 and 32 hashes
  let hashFuncNum := if hashFuncNum < 1 then 1 else hashFuncNum
  let hashFuncNum := if hashFuncNum > 32 then 32 else hashFuncNum
  pure ⟨hashFuncNum, bitsPerKey, bitsArray⟩

/-- The positions that are set or tested for a key, one for each hash. -/
def positions (f : BloomFilter) (key : Bytes) : List UInt32 :=
  let bitsSize := UInt32.ofNat (f.bitsArray.length * 8)
  let h := murmurHash2 key
  let delta := (h >>> 17) ||| (h <<< 15)
  (List.range f.hashFuncNum.toNat).map fun j => (h + UInt32.ofNat j * delta) % bitsSize

def setBit (bits : Bytes) (pos : UInt32) : Bytes :=
  bits.modify (pos / 8).toNat (· ||| (1 <<< (pos % 8).toUInt8))

def testBit (bits : Bytes) (pos : UInt32) : Bool :=
  (bits.getD (pos / 8).toNat 0) &&& (1 <<< (pos % 8).toUInt8) ≠ 0

/-- A filter without bits divides by zero as soon as there is a key. -/
def createFilter (f : BloomFilter) (keys : List Bytes) : Exec BloomFilter := do
  require .trap
    (keys = [] ∨ f.hashFuncNum ≤ 0 ∨ UInt32.ofNat (f.bitsArray.length * 8) ≠ 0)
  pure { f with
    bitsArray := keys.foldl (fun bits key => (f.positions key).foldl setBit bits) f.bitsArray }

def createFilter2 (f : BloomFilter) (hashFuncNum : ℤ) (bitsArray : Bytes) : BloomFilter :=
  { f with hashFuncNum := hashFuncNum, bitsArray := bitsArray }

def exists_ (f : BloomFilter) (key : Bytes) : Exec Bool :=
  if key = [] then pure false
  else do
    require .trap (f.hashFuncNum ≤ 0 ∨ UInt32.ofNat (f.bitsArray.length * 8) ≠ 0)
    pure ((f.positions key).all (testBit f.bitsArray))

end BloomFilter

/-! ## FilterBlockBuilder -/

structure FilterBlockBuilder where
  filterPolicy : BloomFilter
  keyData : List Bytes
  data : Bytes

namespace FilterBlockBuilder

def new (fm : FloatMath) (keysNum : ℤ) : Exec FilterBlockBuilder := do
  let filterPolicy ← BloomFilter.new fm keysNum
  pure ⟨filterPolicy, [], []⟩

def add (b : FilterBlockBuilder) (key : Bytes) : FilterBlockBuilder :=
  if key = [] then b else { b with keyData := b.keyData ++ [key] }

def createFilter (b : FilterBlockBuilder) : Exec FilterBlockBuilder :=
  if b.keyData = [] then pure b
  else do
    let filterPolicy ← b.filterPolicy.createFilter b.keyData
    pure { b with filterPolicy := filterPolicy }

def finishFilterBlock (b : FilterBlockBuilder) : Exec FilterBlockBuilder := do
  let b ← b.createFilter
  -- the number of hashes goes behind the bits
  let data := b.filterPolicy.bitsArray ++ encodeFixed32 (asUInt32 b.filterPolicy.hashFuncNum)
  pure { b with data := data }

def exists_ (b : FilterBlockBuilder) (key : Bytes) : Exec Bool := b.filterPolicy.exists_ key

end FilterBlockBuilder

end Smallkv
