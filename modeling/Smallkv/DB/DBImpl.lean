import Smallkv.Cache.Cache
import Smallkv.MemTable.MemTable
import Smallkv.Storage.Path
import Smallkv.Storage.Wal

/-!
# DB.DBImpl — the database

`Put` and `Delete` are four steps each (log, memtable, cache, flush), `Get` asks
cache, memtable and one SST file, and `Close` flushes what is left. The tables
a session writes go to `files`, the disk; `flushes` is a history variable that
remembers what each flush wrote and where, newest first, and no step reads it.
The log is taken to be a file of its own.

What is built and what is read back is the business of an `SstFormat`; the rest
of the surroundings is a `Host`.
-/

namespace Smallkv

open Fallible

/-! ## Options -/

/-- `Options`. The storage directory is a path, so there is no NUL in it. -/
structure Options where
  storageDir : Bytes := ascii "./output/db_storage"
  memTableMaxSize : ℕ := 4 * 1024 * 1024
  cacheSize : ℕ := 4096
  lisstNum : UInt32 := 0
  storageDir_nulFree : 0 ∉ storageDir

def Options.default : Options where
  storageDir_nulFree := by decide

/-- What the process finds around it. -/
structure Host where
  crc32c : Bytes → UInt32
  /-- `std::hash<std::string>` -/
  hash : Bytes → ℕ
  /-- the working directory -/
  cwd : FileId

/-- How tables are written and read. `build n entries` are the bytes that
`SSTableBuilder(n, writer)` appends when it is fed the entries and finished;
`seek content key` is `SSTParser` on a file with that content. -/
structure SstFormat where
  build : ℤ → List (Bytes × Bytes) → Exec Bytes
  seek : Bytes → Bytes → Exec (Option Bytes)

/-! ## State -/

/-- A flush that took place. -/
structure Flush where
  number : UInt32
  file : FileId
  entries : List (Bytes × Bytes)
  bytes : Bytes

structure DBImpl where
  options : Options
  memTable : MemTable
  walWriter : FileWriter
  cache : Cache Bytes Bytes
  closed : Bool
  files : FileId → Option Bytes
  flushes : List Flush

/-- What is on the disk between sessions. -/
structure Disk where
  wal : Bytes
  files : FileId → Option Bytes

def Disk.empty : Disk := ⟨[], fun _ => none⟩

/-- `file_path.substr(0, file_path.rfind('/'))`. -/
def dirPath (path : Bytes) : Bytes :=
  if slash ∈ path then ((path.reverse.dropWhile (· ≠ slash)).drop 1).reverse else path

/-- The constructor of `FileWriter`: an existing file is appended to; for a new
one the directory is made, which an empty name does not allow. -/
def openForAppend (files : FileId → Option Bytes) (cwd : FileId) (path : Bytes) : Exec Bytes :=
  match files (resolve cwd path) with
  | some content => pure content
  | none => do
    -- `create_directories("")` throws
    require .exception (dirPath path ≠ [])
    pure []

namespace DBImpl

variable (host : Host) (sst : SstFormat)

/-- The constructor. -/
def openDB (options : Options) (disk : Disk) : DBImpl where
  options := options
  memTable := MemTable.new
  walWriter := FileWriter.openFile disk.wal
  cache := Cache.new options.cacheSize
  closed := false
  files := disk.files
  flushes := []

def disk (db : DBImpl) : Disk := ⟨db.walWriter.file, db.files⟩

/-! ## Tables -/

/-- The path `MemTableToSST` writes the table with the given number to. -/
def writePath (options : Options) (number : UInt32) : Bytes :=
  options.storageDir ++ slash :: buildSSTPath 0 number.toNat

/-- The path `Get` reads. -/
def readPath (options : Options) : Bytes := options.storageDir ++ ascii "level_0_sst_0.sst"

def memTableToSST (db : DBImpl) : Exec DBImpl := do
  let number := db.options.lisstNum
  let sstFilepath := writePath db.options number
  let content ← openForAppend db.files host.cwd sstFilepath
  let entries ← db.memTable.entries
  let bytes ← sst.build db.memTable.getSize entries
  let file := resolve host.cwd sstFilepath
  pure
    { db with
      options := { db.options with lisstNum := number + 1 }
      files := Function.update db.files file (some (content ++ bytes))
      flushes := { number := number, file := file, entries := entries, bytes := bytes } ::
        db.flushes }

/-! ## Writing -/

/-- `EncodeKV(key, value, buf); wal_writer->AddLog(buf)`. -/
def writeLog (db : DBImpl) (key value : Bytes) : Exec DBImpl := do
  let walWriter ← walAppend host.crc32c db.walWriter key value
  pure { db with walWriter := walWriter }

/-- The memtable step of `Put`. -/
def putMemTable (db : DBImpl) (flips : List Bool) (key value : Bytes) : Exec DBImpl := do
  let present ← db.memTable.contains key
  let memTable ←
    if present then db.memTable.update flips key value else db.memTable.add flips key value
  pure { db with memTable := memTable }

/-- The memtable step of `Delete`. -/
def deleteMemTable (db : DBImpl) (flips : List Bool) (key : Bytes) : Exec DBImpl := do
  let present ← db.memTable.contains key
  let memTable ←
    if present then db.memTable.delete flips key else db.memTable.add flips key []
  pure { db with memTable := memTable }

/-- The cache step of `Put`. -/
def putCache (db : DBImpl) (key value : Bytes) : Exec DBImpl := do
  let cache ← db.cache.insert host.hash (cString key) (cString value)
  pure { db with cache := cache }

/-- The cache step of `Delete`. -/
def eraseCache (db : DBImpl) (key : Bytes) : Exec DBImpl := do
  let cache ← db.cache.erase host.hash (cString key)
  pure { db with cache := cache }

/-- The last step of both: a memtable over its limit becomes a table. -/
def flushIfFull (db : DBImpl) : Exec DBImpl :=
  if asSizeT db.memTable.getMemUsage ≥ db.options.memTableMaxSize then do
    let db ← db.memTableToSST host sst
    pure { db with memTable := MemTable.new }
  else pure db

def put (db : DBImpl) (flips : List Bool) (key value : Bytes) : Exec (DBImpl × DBStatus) := do
  require .assertion (db.closed = false)
  -- 1. the log
  let db ← db.writeLog host key value
  -- 2. the memtable
  let db ← db.putMemTable flips key value
  -- 3. the cache
  let db ← db.putCache host key value
  -- 4. a memtable over its limit becomes a table
  let db ← db.flushIfFull host sst
  pure (db, Status.success)

def delete (db : DBImpl) (flips : List Bool) (key : Bytes) : Exec (DBImpl × DBStatus) := do
  require .assertion (db.closed = false)
  -- 1. the log, an empty value standing for the deletion
  let db ← db.writeLog host key []
  -- 2. the memtable
  let db ← db.deleteMemTable flips key
  -- 3. the cache
  let db ← db.eraseCache host key
  -- 4. a memtable over its limit becomes a table
  let db ← db.flushIfFull host sst
  pure (db, Status.success)

/-! ## Reading -/

/-- The first two tiers of `Get`: the cache, else the memtable. -/
def getTiers (db : DBImpl) (key : Bytes) : Exec (DBImpl × Option Bytes) := do
  if db.cache.contains host.hash (cString key) then do
    let (cache, node) ← db.cache.get host.hash (cString key)
    let node ← orFail .badAccess node
    let val ← cache.valueAt host.hash (cString key) node
    pure ({ db with cache := cache }, some val)
  else if ← db.memTable.contains key then do
    -- the value is looked up twice, once for nothing
    let _ ← db.memTable.get key
    let val ← db.memTable.get (cString key)
    let val ← orFail .exception val
    pure (db, some val)
  else pure (db, none)

/-- The third tier of `Get`: the file has to exist, and a value that is found
goes into the cache. -/
def getSST (db : DBImpl) (key out : Bytes) : Exec (DBImpl × DBStatus × Bytes) := do
  let content ← orFail .assertion (db.files (resolve host.cwd (readPath db.options)))
  match ← sst.seek content key with
  | none => pure (db, Status.notFound, out)
  | some val => do
    let cache ← db.cache.insert host.hash (cString key) val
    -- here the value is appended to the caller's string, above it replaces it
    pure ({ db with cache := cache }, Status.success, out ++ val)

/-- `Get`, with the content of `*ret_value_ptr` before and after. -/
def get (db : DBImpl) (key out : Bytes) : Exec (DBImpl × DBStatus × Bytes) := do
  require .assertion (db.closed = false)
  match ← db.getTiers host key with
  | (db, some val) => pure (db, Status.success, val)
  | (db, none) => db.getSST host sst key out

/-! ## Closing -/

def close (db : DBImpl) : Exec (DBImpl × DBStatus) := do
  if db.closed = false ∧ db.memTable.getSize > 0 then do
    let db ← db.memTableToSST host sst
    pure ({ db with closed := true }, Status.success)
  -- an empty memtable leaves the database open
  else pure (db, Status.success)

/-! ## Runs -/

/-- A write by a client, with the coin flips its insertion sees. -/
inductive Write where
  | put (flips : List Bool) (key value : Bytes)
  | delete (flips : List Bool) (key : Bytes)

namespace Write

def key : Write → Bytes
  | .put _ key _ => key
  | .delete _ key => key

/-- The value that is to be read back; the empty one for a deletion. -/
def value : Write → Bytes
  | .put _ _ value => value
  | .delete _ _ => []

/-- Neither key nor value holds a NUL byte. -/
def NulFree (w : Write) : Prop := 0 ∉ w.key ∧ 0 ∉ w.value

instance (w : Write) : Decidable w.NulFree := inferInstanceAs (Decidable (_ ∧ _))

end Write

def write (db : DBImpl) : Write → Exec DBImpl
  | .put flips key value => do
    let (db, _) ← db.put host sst flips key value
    pure db
  | .delete flips key => do
    let (db, _) ← db.delete host sst flips key
    pure db

/-- The last value written for a key, if there was a write. -/
def lastWrite (ws : List Write) (key : Bytes) : Option Bytes :=
  (ws.reverse.find? fun w => w.key = key).map Write.value

/-- A call by a client. -/
inductive Op where
  | write (w : Write)
  | get (key : Bytes)

/-- The writes among the calls. -/
def writes : List Op → List Write
  | [] => []
  | .write w :: ops => w :: writes ops
  | .get _ :: ops => writes ops

/-- One call; `Get` is handed an empty string. -/
def step (db : DBImpl) : Op → Exec DBImpl
  | .write w => db.write host sst w
  | .get key => do
    let (db, _) ← db.get host sst key []
    pure db

/-! ## Last writes -/

@[simp] theorem lastWrite_nil (key : Bytes) : lastWrite [] key = none := rfl

theorem lastWrite_concat (ws : List Write) (w : Write) (key : Bytes) :
    lastWrite (ws ++ [w]) key = if w.key = key then some w.value else lastWrite ws key := by
  by_cases hkey : w.key = key
  · simp [lastWrite, hkey]
  · simp [lastWrite, hkey]

theorem lastWrite_update (ws : List Write) (w : Write) :
    lastWrite (ws ++ [w]) = Function.update (lastWrite ws) w.key (some w.value) := by
  funext key
  rw [lastWrite_concat, Function.update_apply]
  simp only [eq_comm]

/-! ## Stored strings -/

/-- A write as the tiers see it. -/
def Write.stored : Write → Write
  | .put flips key value => .put flips (cString key) (cString value)
  | .delete flips key => .delete flips (cString key)

/-- The value last stored under a C string. -/
def lastStored (ws : List Write) : Bytes → Option Bytes := lastWrite (ws.map Write.stored)

@[simp] theorem Write.key_stored (w : Write) : w.stored.key = cString w.key := by
  cases w <;> rfl

@[simp] theorem Write.value_stored (w : Write) : w.stored.value = cString w.value := by
  cases w <;> rfl

theorem lastStored_concat (ws : List Write) (w : Write) :
    lastStored (ws ++ [w]) =
      Function.update (lastStored ws) (cString w.key) (some (cString w.value)) := by
  rw [lastStored, List.map_append, List.map_singleton, lastWrite_update, Write.key_stored,
    Write.value_stored, lastStored]

theorem Write.stored_of_nulFree {w : Write} (h : w.NulFree) : w.stored = w := by
  have hkey := cString_eq_self h.1
  have hvalue := cString_eq_self h.2
  cases w with
  | put flips key value =>
      simp only [Write.key, Write.value] at hkey hvalue
      rw [Write.stored, hkey, hvalue]
  | delete flips key =>
      simp only [Write.key] at hkey
      rw [Write.stored, hkey]

theorem lastStored_of_nulFree {ws : List Write} (h : ∀ w ∈ ws, w.NulFree) :
    lastStored ws = lastWrite ws := by
  have hsame : ∀ w ∈ ws, w.stored = id w := fun w hw => Write.stored_of_nulFree (h w hw)
  rw [lastStored, List.map_congr_left hsame, List.map_id]

/-! ## The writes among the calls -/

theorem writes_concat_write (ops : List Op) (w : Write) :
    writes (ops ++ [.write w]) = writes ops ++ [w] := by
  induction ops with
  | nil => rfl
  | cons op ops ih =>
      cases op with
      | write w' => simp [writes, ih]
      | get key => simp [writes, ih]

theorem writes_concat_get (ops : List Op) (key : Bytes) :
    writes (ops ++ [.get key]) = writes ops := by
  induction ops with
  | nil => rfl
  | cons op ops ih =>
      cases op with
      | write w => simp [writes, ih]
      | get key' => simp [writes, ih]

/-- What holds of all writes holds of those before the last call. -/
theorem forall_writes_of_concat {P : Write → Prop} {ops : List Op} {op : Op}
    (h : ∀ w ∈ writes (ops ++ [op]), P w) : ∀ w ∈ writes ops, P w := by
  intro w hw
  refine h w ?_
  cases op with
  | get key => rwa [writes_concat_get]
  | write w' => simp [writes_concat_write, hw]

end DBImpl

end Smallkv
