import Smallkv.Lib.Arena
import Smallkv.Base

/-!
# MemTable.SkipList — the skip list as the code computes it

Nodes live on a heap and are linked through `next`, one pointer per level. The
loops of `Get`, `Contains`, `FindPrevNode` and `Delete` are given a number of
iterations and fault with `Fault.endless` when it runs out, and every
`cur->next[level]`, `prev[i]` and dereference is bounds checked, so a result
`.ok` says that the loop ends and stays inside the structure.

`rand() & 1` is a coin: an operation is given the flips that `RandomLevel`
would see, so a statement over all flips ranges over all towers.
-/

namespace Smallkv

open Fallible

/-- `SkipListConfig::kMaxHeight`. -/
def kMaxHeight : ℕ := 12

/-- `SkipList::Node`; `next.size()` is the height of the tower. -/
structure Node (Key Value : Type) where
  key : Key
  value : Value
  next : List (Option Ptr)
deriving Repr

def Node.getLevel {Key Value : Type} (n : Node Key Value) : ℕ := n.next.length

structure SkipList (Key Value : Type) where
  heap : Arena (Node Key Value)
  head : Ptr
  maxLevel : ℕ
  size : ℤ
  memUsage : ℤ

namespace SkipList

variable {Key Value : Type}

/-! ## Memory access -/

/-- `cur->next[level]`. -/
def nextAt (h : Arena (Node Key Value)) (cur : Ptr) (level : ℕ) : Exec (Option Ptr) := do
  let node ← orFail .badAccess (h.load cur)
  orFail .badAccess node.next[level]?

/-- `cur->next[level] = q`. -/
def setNextAt (h : Arena (Node Key Value)) (cur : Ptr) (level : ℕ) (q : Option Ptr) :
    Exec (Arena (Node Key Value)) := do
  let node ← orFail .badAccess (h.load cur)
  require .badAccess (level < node.next.length)
  pure (h.store cur { node with next := node.next.set level q })

/-- `prev[level] = cur` on the vector of predecessors. -/
def setPrev (prev : List (Option Ptr)) (level : ℕ) (cur : Ptr) : Exec (List (Option Ptr)) := do
  require .badAccess (level < prev.length)
  pure (prev.set level (some cur))

/-! ## Construction -/

/-- `RandomLevel`: raise the level while it is below the maximum and the coin
shows one. Flips beyond the given ones show zero. -/
def randomLevelLoop (level : ℕ) : List Bool → ℕ
  | [] => level
  | flip :: flips =>
    if level < kMaxHeight && flip then randomLevelLoop (level + 1) flips else level

def randomLevel (flips : List Bool) : ℕ := randomLevelLoop 1 flips

/-- `NewNode`: all pointers of a new tower are null. -/
def newNode (key : Key) (level : ℕ) (value : Value) : Node Key Value :=
  { key := key, value := value, next := List.replicate level none }

/-- The constructor: `head_` is a full-height tower that holds no data. -/
def new [Inhabited Key] [Inhabited Value] : SkipList Key Value :=
  { heap := Arena.empty.alloc (newNode default kMaxHeight default)
    head := Arena.fresh (Arena.empty : Arena (Node Key Value))
    maxLevel := 1
    size := 0
    memUsage := 0 }

def getCurrentHeight (s : SkipList Key Value) : ℕ := s.maxLevel

/-- `GetSize` returns an `int`. -/
def getSize (s : SkipList Key Value) : ℤ := asInt32 s.size

def getMemUsage (s : SkipList Key Value) : ℤ := s.memUsage

/-- Iterations that suffice for any walk: each one descends a level or moves to
the next tower. -/
def walkBound (s : SkipList Key Value) : ℕ := s.maxLevel + s.heap.fresh

variable [LinearOrder Key]

/-! ## Searching -/

/-- The loop `Get` and `Contains` share: walk right below `key`, descend at the
end of a level or above `key`, and stop on a tower that holds `key`. -/
def searchLoop (h : Arena (Node Key Value)) (key : Key) :
    ℕ → Ptr → ℕ → Exec (Option (Node Key Value))
  | 0, _, _ => .error .endless
  | fuel + 1, cur, level => do
    match ← nextAt h cur level with
    | none =>
      if level = 0 then pure none
      else searchLoop h key fuel cur (level - 1)
    | some next => do
      let node ← orFail .badAccess (h.load next)
      if node.key = key then pure (some node)
      else if node.key < key then searchLoop h key fuel next level
      else if level = 0 then pure none
      else searchLoop h key fuel cur (level - 1)

def get (s : SkipList Key Value) (key : Key) : Exec (Option Value) := do
  let found ← searchLoop s.heap key s.walkBound s.head (s.getCurrentHeight - 1)
  pure (found.map Node.value)

def contains (s : SkipList Key Value) (key : Key) : Exec Bool := do
  let found ← searchLoop s.heap key s.walkBound s.head (s.getCurrentHeight - 1)
  pure found.isSome

/-! ## Insertion -/

/-- The loop of `FindPrevNode`. -/
def findPrevLoop (h : Arena (Node Key Value)) (key : Key) :
    ℕ → Ptr → ℕ → List (Option Ptr) → Exec (List (Option Ptr))
  | 0, _, _, _ => .error .endless
  | fuel + 1, cur, level, prev => do
    match ← nextAt h cur level with
    | none => do
      let prev ← setPrev prev level cur
      if level > 0 then findPrevLoop h key fuel cur (level - 1) prev else pure prev
    | some next => do
      let node ← orFail .badAccess (h.load next)
      if node.key ≥ key then do
        let prev ← setPrev prev level cur
        if level > 0 then findPrevLoop h key fuel cur (level - 1) prev else pure prev
      else findPrevLoop h key fuel next level prev

def findPrevNode (s : SkipList Key Value) (key : Key) (prev : List (Option Ptr)) :
    Exec (List (Option Ptr)) :=
  findPrevLoop s.heap key s.walkBound s.head (s.getCurrentHeight - 1) prev

/-- One iteration of the loop that links a new tower in: level `i` goes behind
`prev[i]`, or behind the head where no predecessor was recorded. -/
def linkLevel (head newPtr : Ptr) (prev : List (Option Ptr)) (h : Arena (Node Key Value))
    (i : ℕ) : Exec (Arena (Node Key Value)) := do
  match ← orFail .badAccess prev[i]? with
  | none => do
    let h ← setNextAt h newPtr i none
    setNextAt h head i (some newPtr)
  | some p => do
    let next ← nextAt h p i
    let h ← setNextAt h newPtr i next
    setNextAt h p i (some newPtr)

variable [HasSize Key] [HasSize Value]

/-- `Insert`: a key that is present is left alone. -/
def insert (s : SkipList Key Value) (flips : List Bool) (key : Key) (value : Value) :
    Exec (SkipList Key Value) := do
  if ← s.contains key then pure s
  else do
    let prev ← s.findPrevNode key (List.replicate kMaxHeight none)
    let level := randomLevel flips
    let heap ← run (linkLevel s.head s.heap.fresh prev)
      (s.heap.alloc (newNode key level value)) (List.range level)
    pure
      { s with
        heap := heap
        maxLevel := max level s.maxLevel
        size := s.size + 1
        memUsage := s.memUsage + HasSize.size key + HasSize.size value }

/-! ## Deletion -/

/-- The loop of `Delete`: record the predecessor at every level where the walk
stops at or above `key`, and the height of the tower that holds `key`. -/
def deleteLoop (h : Arena (Node Key Value)) (key : Key) :
    ℕ → Ptr → ℕ → List (Option Ptr) → ℤ → Exec (List (Option Ptr) × ℤ)
  | 0, _, _, _, _ => .error .endless
  | fuel + 1, cur, level, prev, levelOfTarget => do
    match ← nextAt h cur level with
    | none =>
      -- nothing is recorded at the end of a level
      if level = 0 then pure (prev, levelOfTarget)
      else deleteLoop h key fuel cur (level - 1) prev levelOfTarget
    | some next => do
      let node ← orFail .badAccess (h.load next)
      if node.key = key then do
        let prev ← setPrev prev level cur
        if level = 0 then pure (prev, (node.getLevel : ℤ))
        else deleteLoop h key fuel cur (level - 1) prev node.getLevel
      else if node.key < key then deleteLoop h key fuel next level prev levelOfTarget
      else do
        let prev ← setPrev prev level cur
        if level = 0 then pure (prev, levelOfTarget)
        else deleteLoop h key fuel cur (level - 1) prev levelOfTarget

/-- One iteration of the loop that unlinks the target. -/
def unlinkLevel (prev : List (Option Ptr)) (h : Arena (Node Key Value)) (i : ℕ) :
    Exec (Arena (Node Key Value)) := do
  match ← orFail .badAccess prev[i]? with
  | none => pure h
  | some p => do
    match ← nextAt h p i with
    -- `assert(prev[i]->next[i] != nullptr)`
    | none => .error .assertion
    | some target => do
      let next ← nextAt h target i
      setNextAt h p i next

/-- `Delete`: an absent key is left alone; the node itself is not freed. -/
def delete (s : SkipList Key Value) (key : Key) : Exec (SkipList Key Value) := do
  if ← s.contains key then do
    let (prev, levelOfTarget) ← deleteLoop s.heap key s.walkBound s.head
      (s.getCurrentHeight - 1) (List.replicate kMaxHeight none) (-1)
    -- prev[0]->next[0] is the node that goes
    let p ← orFail .badAccess (prev[0]?).join
    let target ← orFail .badAccess (← nextAt s.heap p 0)
    let node ← orFail .badAccess (s.heap.load target)
    let heap ← run (unlinkLevel prev) s.heap (List.range levelOfTarget.toNat)
    pure
      { s with
        heap := heap
        size := s.size - 1
        memUsage := s.memUsage - HasSize.size key - HasSize.size node.value }
  else pure s

end SkipList

/-! ## Iteration -/

/-- `SkipListIterator`; `node` is null before `MoveToFirst` and past the end. -/
structure SkipListIterator (Key Value : Type) where
  list : SkipList Key Value
  node : Option Ptr

namespace SkipListIterator

variable {Key Value : Type}

def valid (it : SkipListIterator Key Value) : Bool := it.node.isSome

def moveToFirst (it : SkipListIterator Key Value) : Exec (SkipListIterator Key Value) := do
  let first ← SkipList.nextAt it.list.heap it.list.head 0
  pure { it with node := first }

/-- `Next`: iteration runs along the lowest level. -/
def next (it : SkipListIterator Key Value) : Exec (SkipListIterator Key Value) := do
  let cur ← orFail .assertion it.node
  let node ← SkipList.nextAt it.list.heap cur 0
  pure { it with node := node }

def key (it : SkipListIterator Key Value) : Exec Key := do
  let cur ← orFail .assertion it.node
  let node ← orFail .badAccess (it.list.heap.load cur)
  pure node.key

def value (it : SkipListIterator Key Value) : Exec Value := do
  let cur ← orFail .assertion it.node
  let node ← orFail .badAccess (it.list.heap.load cur)
  pure node.value

/-- Repeat `key()`, `value()`, `Next()` while `Valid()`. -/
def collect : ℕ → SkipListIterator Key Value → Exec (List (Key × Value))
  | 0, it => if it.valid then .error .endless else pure []
  | fuel + 1, it =>
    if it.valid then do
      let key ← it.key
      let value ← it.value
      let rest ← collect fuel (← it.next)
      pure ((key, value) :: rest)
    else pure []

end SkipListIterator

/-- What an iteration from `MoveToFirst` to the end yields, in order. -/
def SkipList.entries {Key Value : Type} (s : SkipList Key Value) :
    Exec (List (Key × Value)) := do
  let it : SkipListIterator Key Value := { list := s, node := none }
  SkipListIterator.collect s.heap.fresh (← it.moveToFirst)

end Smallkv
