import Smallkv.DB.DBImpl
import Smallkv.Lib.Dialogue

/-!
# Cli.Parse — the command line

A line is trimmed, its first three characters say what is to be done, and the
positions of its spaces where the arguments are. `ParseAndExec` is a dialogue
with the database: it makes at most one call and replies with what comes back.
The grammar of the commands is `Command`. A line can be taken for a command that
it is not: its first word only begins with the name, or its key is empty
(`parseAndExec_exact_iff`).
-/

namespace Smallkv

/-- `' '`. -/
def space : Byte := 32

/-! ## Strings -/

/-- `find_first_of` and `find_first_not_of`; `npos` is `none`. -/
def findFirst (p : Byte → Bool) (s : Bytes) : Option ℕ := s.findIdx? p

/-- `find_last_of` and `find_last_not_of`. -/
def findLast (p : Byte → Bool) (s : Bytes) : Option ℕ :=
  (s.reverse.findIdx? p).map fun i => s.length - 1 - i

/-- `static_cast<int>` of a position. -/
def position : Option ℕ → ℤ
  | none => -1
  | some i => asInt32 i

/-- `s.substr(pos, n)`, for a position inside the string. -/
def substr (s : Bytes) (pos n : ℤ) : Bytes := (s.drop (asSizeT pos)).take (asSizeT n)

/-- `s.substr(pos)`. -/
def substrFrom (s : Bytes) (pos : ℤ) : Bytes := s.drop (asSizeT pos)

section

variable {a b : Bytes} {c : Byte}

theorem findFirst_append (ha : c ∉ a) (b : Bytes) :
    findFirst (· == c) (a ++ c :: b) = some a.length := by
  have hnone : a.findIdx? (· == c) = none := by
    rw [List.findIdx?_eq_none_iff]
    intro x hx
    rw [beq_eq_false_iff_ne]
    rintro rfl
    exact ha hx
  simp [findFirst, List.findIdx?_append, List.findIdx?_cons, hnone]

theorem findLast_append (hb : c ∉ b) (a : Bytes) :
    findLast (· == c) (a ++ c :: b) = some a.length := by
  have hrev : (a ++ c :: b).reverse = b.reverse ++ c :: a.reverse := by simp
  have hfirst := findFirst_append (a := b.reverse) (by simpa using hb) a.reverse
  unfold findFirst at hfirst
  unfold findLast
  rw [hrev, hfirst, Option.map_some, List.length_reverse, List.length_append, List.length_cons]
  congr 1
  omega

theorem position_some {i : ℕ} (hi : i < 2 ^ 31) : position (some i) = i :=
  asInt32_of_lt (Int.natCast_nonneg i) (by exact_mod_cast hi)

theorem asSizeT_natCast {n : ℕ} (hn : n < 2 ^ 64) : asSizeT n = n := by
  unfold asSizeT
  omega

/-- What stands behind the character. -/
theorem substrFrom_append (hlen : (a ++ c :: b).length < 2 ^ 31) :
    substrFrom (a ++ c :: b) (position (some a.length) + 1) = b := by
  rw [List.length_append, List.length_cons] at hlen
  have hpos : position (some a.length) + 1 = ((a.length + 1 : ℕ) : ℤ) := by
    rw [position_some (by omega)]
    push_cast
    rfl
  have hdrop : (a ++ [c] ++ b).drop (a ++ [c]).length = b := List.drop_left
  rw [List.length_append, List.length_singleton, ← List.append_cons] at hdrop
  rw [substrFrom, hpos, asSizeT_natCast (by omega), hdrop]

/-- What stands between two of them. -/
theorem substr_append {k : Bytes} (hlen : (a ++ c :: (k ++ c :: b)).length < 2 ^ 31) :
    substr (a ++ c :: (k ++ c :: b)) (position (some a.length) + 1)
      (position (some (a ++ c :: k).length) - position (some a.length) - 1) = k := by
  have hfrom := substrFrom_append hlen
  rw [List.length_append, List.length_cons, List.length_append] at hlen
  have hcount : position (some (a ++ c :: k).length) - position (some a.length) - 1 =
      (k.length : ℤ) := by
    rw [List.length_append, List.length_cons, position_some (by omega), position_some (by omega)]
    push_cast
    ring
  unfold substrFrom at hfrom
  rw [substr, hfrom, hcount, asSizeT_natCast (by omega), List.take_left]

end

namespace ParseCMD

/-! ## The texts -/

namespace CmdType

def exit : Bytes := ascii "exit"

def empty : Bytes := []

def set : Bytes := ascii "set"

def get : Bytes := ascii "get"

def del : Bytes := ascii "del"

end CmdType

namespace ExecStatus

def syntaxErr : Bytes := ascii "(error) ERR syntax error"

def unknownCmd : Bytes := ascii "(error) ERR unknown command"

def tooLongCmd : Bytes := ascii "(error) ERR too long command"

def ok : Bytes := ascii "OK"

def notFound : Bytes := ascii "(nil)"

def execFailed : Bytes := ascii "(error) ERR exec failed"

def successDeletedOne : Bytes := ascii "(integer) 1"

end ExecStatus

/-! ## The parser -/

/-- A call of the database. -/
inductive Call where
  | put (key value : Bytes)
  | get (key : Bytes)
  | delete (key : Bytes)
  | close
deriving DecidableEq, Repr

/-- What comes back: the status and, of `Get`, the content of `*ret_value_ptr`. -/
structure Answer where
  status : DBStatus
  value : Bytes

/-- `erase(0, pos)`. -/
def eraseFront (s : Bytes) : Option ℕ → Bytes
  | none => []
  | some i => s.drop i

/-- `erase(pos + 1)`; `npos + 1` is 0. -/
def eraseBehind (s : Bytes) : Option ℕ → Bytes
  | none => []
  | some i => s.take (i + 1)

def trim (cmd : Bytes) : Bytes :=
  let cmd := eraseFront cmd (findFirst (fun c => !(c == space)) cmd)
  eraseBehind cmd (findLast (fun c => !(c == space)) cmd)

/-- `ParseAndExec`. Behind `exit` there is no reply, the process ends. -/
def parseAndExec (cmd_ : Bytes) : Dialogue Call Answer (Option Bytes) :=
  let cmd := trim cmd_
  if cmd = CmdType.empty then .done (some [])
  else if cmd = CmdType.exit then .ask .close fun _ => .done none
  else if cmd.length < 3 then .done (some (ExecStatus.unknownCmd ++ ascii ": " ++ cmd))
  else if cmd.length > 1000 then .done (some ExecStatus.tooLongCmd)
  else
    let op := cmd.take 3
    if op = CmdType.set then
      if cmd.count space ≠ 2 then .done (some ExecStatus.syntaxErr)
      else
        -- the key is what is between the two spaces, whatever the first word is
        let firstSpace := position (findFirst (· == space) cmd)
        let lastSpace := position (findLast (· == space) cmd)
        let key := substr cmd (firstSpace + 1) (lastSpace - firstSpace - 1)
        let val := substrFrom cmd (lastSpace + 1)
        .ask (.put key val) fun a =>
          .done (some
            (if a.status.code ≠ Status.success.code then ExecStatus.execFailed else ExecStatus.ok))
    else if op = CmdType.get then
      if cmd.count space ≠ 1 then .done (some ExecStatus.syntaxErr)
      else
        let firstSpace := position (findFirst (· == space) cmd)
        let key := substrFrom cmd (firstSpace + 1)
        .ask (.get key) fun a =>
          .done (some
            (if a.status.code ≠ Status.success.code then ExecStatus.execFailed
            -- an empty value is taken for none
            else if a.value = [] then ExecStatus.notFound
            else a.value))
    else if op = CmdType.del then
      if cmd.count space ≠ 1 then .done (some ExecStatus.syntaxErr)
      else
        let firstSpace := position (findFirst (· == space) cmd)
        let key := substrFrom cmd (firstSpace + 1)
        .ask (.delete key) fun a =>
          .done (some
            (if a.status.code ≠ Status.success.code then ExecStatus.execFailed
            else ExecStatus.successDeletedOne))
    else .done (some (ExecStatus.unknownCmd ++ ascii ": " ++ op))

/-- The database behind the command line; `flips` are the coin flips a call sees. -/
def answer (host : Host) (sst : SstFormat) (flips : List Bool) (db : DBImpl) :
    Call → Exec (DBImpl × Answer)
  | .put key value => do
    let (db, status) ← db.put host sst flips key value
    pure (db, ⟨status, []⟩)
  | .get key => do
    let (db, status, value) ← db.get host sst key []
    pure (db, ⟨status, value⟩)
  | .delete key => do
    let (db, status) ← db.delete host sst flips key
    pure (db, ⟨status, []⟩)
  | .close => do
    let (db, status) ← db.close host sst
    pure (db, ⟨status, []⟩)

/-! ## The grammar -/

/-- The line without the spaces at both of its ends. -/
def trimmed (line : Bytes) : Bytes := (line.dropWhile (· == space)).rdropWhile (· == space)

/-- A word of a command. -/
def Word (w : Bytes) : Prop := w ≠ [] ∧ space ∉ w

/-- The commands, and the calls they stand for. -/
inductive Command : Bytes → Call → Prop
  | set {k v : Bytes} (hk : Word k) (hv : Word v) :
      Command (CmdType.set ++ space :: (k ++ space :: v)) (.put k v)
  | get {k : Bytes} (hk : Word k) : Command (CmdType.get ++ space :: k) (.get k)
  | del {k : Bytes} (hk : Word k) : Command (CmdType.del ++ space :: k) (.delete k)

/-- The calls that were made for a line are those of the grammar; for other lines
than `exit` there is no call. -/
structure Exact (t : Bytes) (calls : List Call) : Prop where
  commands : ∀ c, c ≠ .close → (c ∈ calls ↔ Command t c)
  others : t ≠ CmdType.exit → (∀ c, ¬ Command t c) → calls = []

/-- The first word of what may be a command is its name, and its key is not empty. -/
structure Separated (t : Bytes) : Prop where
  set : t.take 3 = CmdType.set → t.count space = 2 → t[3]? = some space ∧ t[4]? ≠ some space
  other : t.take 3 = CmdType.get ∨ t.take 3 = CmdType.del → t.count space = 1 → t[3]? = some space

/-! ## What is asked of the database -/

theorem eraseFront_eq (s : Bytes) :
    eraseFront s (findFirst (fun c => !(c == space)) s) = s.dropWhile (· == space) := by
  rw [List.dropWhile_eq_drop_findIdx_not, findFirst]
  cases hfind : s.findIdx? fun c => !(c == space) with
  | none =>
      rw [List.findIdx?_eq_none_iff_findIdx_eq.1 hfind, List.drop_length]
      rfl
  | some i =>
      rw [(List.findIdx?_eq_some_iff_findIdx_eq.1 hfind).2]
      rfl

theorem eraseBehind_eq (s : Bytes) :
    eraseBehind s (findLast (fun c => !(c == space)) s) = s.rdropWhile (· == space) := by
  have hfront := eraseFront_eq s.reverse
  unfold findFirst at hfront
  unfold findLast List.rdropWhile
  rw [← hfront]
  cases hfind : s.reverse.findIdx? fun c => !(c == space) with
  | none => rfl
  | some i =>
      have hlt := (List.findIdx?_eq_some_iff_findIdx_eq.1 hfind).1
      rw [List.length_reverse] at hlt
      have hend : s.length - 1 - i + 1 = s.length - i := by omega
      simp only [Option.map_some, eraseFront, eraseBehind, hend, List.drop_reverse,
        List.reverse_reverse]

theorem trim_eq (line : Bytes) : trim line = trimmed line := by
  unfold trim
  simp only [eraseFront_eq, eraseBehind_eq]
  rfl

/-- A line that was trimmed does not end in a space. -/
theorem ne_nil_of_trimmed {line a v : Bytes} (h : trimmed line = a ++ space :: v) : v ≠ [] := by
  rintro rfl
  have hne : trimmed line ≠ [] := by simp [h]
  have hlast := List.rdropWhile_last_not (· == space) (line.dropWhile (· == space)) hne
  apply hlast
  change ((trimmed line).getLast hne == space) = true
  simp [h]

/-- A line with spaces in it, taken apart at the first one. -/
theorem exists_first_word {t : Bytes} {n : ℕ} (h : t.count space = n + 1) :
    ∃ a r, t = a ++ space :: r ∧ space ∉ a ∧ r.count space = n := by
  have hmem : space ∈ t := List.count_pos_iff.1 (by omega)
  rcases List.eq_append_cons_of_mem hmem with ⟨a, r, rfl, ha⟩
  refine ⟨a, r, rfl, ha, ?_⟩
  rw [List.count_append, List.count_eq_zero_of_not_mem ha, List.count_cons_self] at h
  omega

/-- The first word has three characters exactly if the space behind it is the fourth. -/
theorem first_word_length {a r : Bytes} (ha : space ∉ a)
    (hname : space ∉ (a ++ space :: r).take 3) :
    (a ++ space :: r)[3]? = some space ↔ a.length = 3 := by
  rcases lt_trichotomy a.length 3 with hlt | heq | hgt
  · -- the space behind a shorter word is among the first three characters
    refine iff_of_false ?_ (by omega)
    intro _
    apply hname
    rw [List.mem_take_iff_getElem]
    refine ⟨a.length, ?_, ?_⟩
    · simp only [List.length_append, List.length_cons]
      omega
    · simp
  · refine iff_of_true ?_ heq
    rw [← heq]
    simp
  · refine iff_of_false ?_ (by omega)
    intro h
    rw [List.getElem?_append_left hgt] at h
    exact ha (List.mem_of_getElem? h)

section

variable {σ ε : Type} {env : σ → Call → Except ε (σ × Answer)} {s : σ} {line : Bytes}

/-- A line that begins with the name of a command passes the first checks. -/
theorem name_checks {t op : Bytes} (h : t.take 3 = op)
    (hop : op ∈ [CmdType.set, CmdType.get, CmdType.del]) :
    t ≠ CmdType.empty ∧ t ≠ CmdType.exit ∧ ¬ t.length < 3 := by
  have hthree : ∀ op ∈ [CmdType.set, CmdType.get, CmdType.del],
      op.length = 3 ∧ op ≠ CmdType.exit.take 3 := by decide
  rcases hthree op hop with ⟨hthree, hexit⟩
  have hlen := congrArg List.length h
  rw [List.length_take, hthree] at hlen
  refine ⟨?_, ?_, by omega⟩
  · rintro rfl
    simp [CmdType.empty] at hlen
  · rintro rfl
    exact hexit h.symm

/-- What `Get` and `Delete` are called with. -/
theorem key_behind_space {t a k : Bytes} (ht : t = a ++ space :: k) (ha : space ∉ a)
    (hlen : t.length ≤ 1000) :
    substrFrom t (position (findFirst (· == space) t) + 1) = k := by
  subst ht
  rw [findFirst_append ha]
  apply substrFrom_append
  omega

/-- What `Put` is called with. -/
theorem pair_behind_space {t a k v : Bytes} (ht : t = a ++ space :: (k ++ space :: v))
    (ha : space ∉ a) (hv : space ∉ v) (hlen : t.length ≤ 1000) :
    substr t (position (findFirst (· == space) t) + 1)
        (position (findLast (· == space) t) - position (findFirst (· == space) t) - 1) = k ∧
      substrFrom t (position (findLast (· == space) t) + 1) = v := by
  have hbound : t.length < 2 ^ 31 := by omega
  have hsplit : t = (a ++ space :: k) ++ space :: v := by
    rw [ht, List.append_assoc, List.cons_append]
  have hfirst : findFirst (· == space) t = some a.length := by
    rw [ht, findFirst_append ha]
  have hlast : findLast (· == space) t = some (a ++ space :: k).length := by
    rw [hsplit, findLast_append hv]
  rw [hfirst, hlast]
  constructor
  · rw [ht] at hbound ⊢
    exact substr_append hbound
  · rw [hsplit] at hbound ⊢
    exact substrFrom_append hbound

theorem asked_set {a k v : Bytes} (ht : trimmed line = a ++ space :: (k ++ space :: v))
    (hop : (trimmed line).take 3 = CmdType.set) (hcount : (trimmed line).count space = 2)
    (ha : space ∉ a) (hv : space ∉ v) (hlen : (trimmed line).length ≤ 1000) :
    (parseAndExec line).asked env s = [.put k v] := by
  rcases name_checks hop (by decide) with ⟨hempty, hexit, hshort⟩
  rcases pair_behind_space ht ha hv hlen with ⟨hkey, hval⟩
  unfold parseAndExec
  simp only [trim_eq, if_neg hempty, if_neg hexit, if_neg hshort, if_neg hlen.not_gt, hop, hcount,
    if_true, ne_eq, not_true_eq_false, if_false, hkey, hval, Dialogue.asked_ask_done]

theorem asked_get {a k : Bytes} (ht : trimmed line = a ++ space :: k)
    (hop : (trimmed line).take 3 = CmdType.get) (hcount : (trimmed line).count space = 1)
    (ha : space ∉ a) (hlen : (trimmed line).length ≤ 1000) :
    (parseAndExec line).asked env s = [.get k] := by
  rcases name_checks hop (by decide) with ⟨hempty, hexit, hshort⟩
  have hkey := key_behind_space ht ha hlen
  have hset : CmdType.get ≠ CmdType.set := by decide
  unfold parseAndExec
  simp only [trim_eq, if_neg hempty, if_neg hexit, if_neg hshort, if_neg hlen.not_gt, hop, hcount,
    if_neg hset, if_true, ne_eq, not_true_eq_false, if_false, hkey, Dialogue.asked_ask_done]

theorem asked_del {a k : Bytes} (ht : trimmed line = a ++ space :: k)
    (hop : (trimmed line).take 3 = CmdType.del) (hcount : (trimmed line).count space = 1)
    (ha : space ∉ a) (hlen : (trimmed line).length ≤ 1000) :
    (parseAndExec line).asked env s = [.delete k] := by
  rcases name_checks hop (by decide) with ⟨hempty, hexit, hshort⟩
  have hkey := key_behind_space ht ha hlen
  have hset : CmdType.del ≠ CmdType.set := by decide
  have hget : CmdType.del ≠ CmdType.get := by decide
  unfold parseAndExec
  simp only [trim_eq, if_neg hempty, if_neg hexit, if_neg hshort, if_neg hlen.not_gt, hop, hcount,
    if_neg hset, if_neg hget, if_true, ne_eq, not_true_eq_false, if_false, hkey,
    Dialogue.asked_ask_done]

theorem asked_exit (ht : trimmed line = CmdType.exit) :
    (parseAndExec line).asked env s = [.close] := by
  have hempty : CmdType.exit ≠ CmdType.empty := by decide
  unfold parseAndExec
  simp only [trim_eq, ht, if_neg hempty, if_true, Dialogue.asked_ask_done]

theorem asked_other (hexit : trimmed line ≠ CmdType.exit)
    (hset : (trimmed line).take 3 = CmdType.set → (trimmed line).count space ≠ 2)
    (hget : (trimmed line).take 3 = CmdType.get → (trimmed line).count space ≠ 1)
    (hdel : (trimmed line).take 3 = CmdType.del → (trimmed line).count space ≠ 1) :
    (parseAndExec line).asked env s = [] := by
  unfold parseAndExec
  simp only [trim_eq, if_neg hexit]
  split
  · rfl
  split
  · rfl
  split
  · rfl
  split
  · rename_i hop
    rw [if_pos (hset hop)]
    rfl
  split
  · rename_i hop
    rw [if_pos (hget hop)]
    rfl
  split
  · rename_i hop
    rw [if_pos (hdel hop)]
    rfl
  · rfl

/-! ## What is in the grammar -/

/-- A command begins with its name, and its spaces are the two or the one of its form. -/
theorem Command.shape {t : Bytes} {c : Call} (h : Command t c) :
    (t.take 3 = CmdType.set ∧ t.count space = 2) ∨
      ((t.take 3 = CmdType.get ∨ t.take 3 = CmdType.del) ∧ t.count space = 1) := by
  cases h with
  | @set k v hk hv =>
      refine .inl ⟨rfl, ?_⟩
      have hname : CmdType.set.count space = 0 := by decide
      rw [List.count_append, List.count_cons_self, List.count_append, List.count_cons_self, hname,
        List.count_eq_zero_of_not_mem hk.2, List.count_eq_zero_of_not_mem hv.2]
  | @get k hk =>
      refine .inr ⟨.inl rfl, ?_⟩
      have hname : CmdType.get.count space = 0 := by decide
      rw [List.count_append, List.count_cons_self, hname, List.count_eq_zero_of_not_mem hk.2]
  | @del k hk =>
      refine .inr ⟨.inr rfl, ?_⟩
      have hname : CmdType.del.count space = 0 := by decide
      rw [List.count_append, List.count_cons_self, hname, List.count_eq_zero_of_not_mem hk.2]

/-- The parts of a line on the two sides of its first space. -/
theorem first_word_inj {a b r q : Bytes} (ha : space ∉ a) (hb : space ∉ b)
    (h : a ++ space :: r = b ++ space :: q) : a = b ∧ r = q := by
  have hfirst := findFirst_append (c := space) ha r
  rw [h, findFirst_append hb, Option.some.injEq] at hfirst
  rcases List.append_inj h hfirst.symm with ⟨rfl, htail⟩
  exact ⟨rfl, (List.cons.inj htail).2⟩

/-- What a line with two spaces may stand for. -/
theorem command_two {a k v : Bytes} {c : Call} (ha : space ∉ a) (hk : space ∉ k) (hv : space ∉ v)
    (hval : v ≠ []) :
    Command (a ++ space :: (k ++ space :: v)) c ↔ c = .put k v ∧ a = CmdType.set ∧ k ≠ [] := by
  constructor
  · intro h
    generalize ht : a ++ space :: (k ++ space :: v) = t at h
    cases h with
    | @set k' v' hk' hv' =>
        rcases first_word_inj ha (by decide) ht with ⟨rfl, hrest⟩
        rcases first_word_inj hk hk'.2 hrest with ⟨rfl, rfl⟩
        exact ⟨rfl, rfl, hk'.1⟩
    | get hk' =>
        rcases first_word_inj ha (by decide) ht with ⟨-, rfl⟩
        exact absurd (by simp) hk'.2
    | del hk' =>
        rcases first_word_inj ha (by decide) ht with ⟨-, rfl⟩
        exact absurd (by simp) hk'.2
  · rintro ⟨rfl, rfl, hkey⟩
    exact .set ⟨hkey, hk⟩ ⟨hval, hv⟩

/-- What a line with one space may stand for. -/
theorem command_one {a k : Bytes} {c : Call} (ha : space ∉ a) (hk : space ∉ k) (hkey : k ≠ []) :
    Command (a ++ space :: k) c ↔
      c = .get k ∧ a = CmdType.get ∨ c = .delete k ∧ a = CmdType.del := by
  constructor
  · intro h
    generalize ht : a ++ space :: k = t at h
    cases h with
    | @set k' v' hk' hv' =>
        rcases first_word_inj ha (by decide) ht with ⟨-, rfl⟩
        exact absurd (by simp) hk
    | get hk' =>
        rcases first_word_inj ha (by decide) ht with ⟨rfl, rfl⟩
        exact .inl ⟨rfl, rfl⟩
    | del hk' =>
        rcases first_word_inj ha (by decide) ht with ⟨rfl, rfl⟩
        exact .inr ⟨rfl, rfl⟩
  · rintro (⟨rfl, rfl⟩ | ⟨rfl, rfl⟩)
    · exact .get ⟨hkey, hk⟩
    · exact .del ⟨hkey, hk⟩

/-- One call was made: the line has to be the command it stands for. -/
theorem exact_singleton {t : Bytes} {c : Call} {P : Prop} (hc : c ≠ .close)
    (hcommand : ∀ c', Command t c' ↔ c' = c ∧ P) : Exact t [c] ↔ P := by
  constructor
  · intro h
    have hcalled := (h.commands c hc).1 List.mem_cons_self
    exact ((hcommand c).1 hcalled).2
  · intro hP
    constructor
    · intro c' _
      rw [List.mem_singleton, hcommand]
      exact ⟨fun h => ⟨h, hP⟩, fun h => h.1⟩
    · intro _ hnone
      exact absurd ((hcommand c).2 ⟨rfl, hP⟩) (hnone c)

/-- No command: nothing is to be called. -/
theorem exact_of_not_command {t : Bytes} {calls : List Call} (h : ∀ c, ¬ Command t c)
    (hclose : ∀ c ∈ calls, c = .close) (hexit : t ≠ CmdType.exit → calls = []) :
    Exact t calls where
  commands := by
    intro c hc
    exact iff_of_false (fun hmem => hc (hclose c hmem)) (h c)
  others := fun ht _ => hexit ht

theorem name_of_take {a r op : Bytes} (hop : (a ++ space :: r).take 3 = op) (hthree : a.length = 3) :
    a = op := by
  rw [← hop, ← hthree, List.take_left]

/-- Two spaces behind `set`. -/
theorem separated_two {a k v : Bytes} (ha : space ∉ a) (hk : space ∉ k)
    (hop : (a ++ space :: (k ++ space :: v)).take 3 = CmdType.set)
    (hcount : (a ++ space :: (k ++ space :: v)).count space = 2) :
    Separated (a ++ space :: (k ++ space :: v)) ↔ a = CmdType.set ∧ k ≠ [] := by
  have hlength := first_word_length ha (r := k ++ space :: v) (by rw [hop]; decide)
  have hkey : a.length = 3 →
      ((a ++ space :: (k ++ space :: v))[4]? ≠ some space ↔ k ≠ []) := by
    intro hthree
    rw [List.getElem?_append_right (by omega), hthree]
    cases k with
    | nil => simp
    | cons b k =>
        have hb : b ≠ space := fun h => hk (h ▸ List.mem_cons_self)
        simp [hb]
  constructor
  · intro h
    rcases h.set hop hcount with ⟨hspace, hnext⟩
    have hthree := hlength.1 hspace
    exact ⟨name_of_take hop hthree, (hkey hthree).1 hnext⟩
  · rintro ⟨rfl, hne⟩
    constructor
    · intro _ _
      exact ⟨hlength.2 rfl, (hkey rfl).2 hne⟩
    · -- there are two spaces, not one
      intro _ hone
      rw [hcount] at hone
      cases hone

/-- One space behind `get` or `del`. -/
theorem separated_one {a k op : Bytes} (ha : space ∉ a) (hop : (a ++ space :: k).take 3 = op)
    (hname : op ∈ [CmdType.get, CmdType.del]) (hcount : (a ++ space :: k).count space = 1) :
    Separated (a ++ space :: k) ↔ a = op := by
  have hnames : ∀ op ∈ [CmdType.get, CmdType.del],
      op.length = 3 ∧ space ∉ op ∧ (op = CmdType.get ∨ op = CmdType.del) := by decide
  rcases hnames op hname with ⟨hthree, hspace, hor⟩
  have hlength := first_word_length ha (r := k) (by rwa [hop])
  constructor
  · intro h
    rw [← hop] at hor
    exact name_of_take hop (hlength.1 (h.other hor hcount))
  · rintro rfl
    constructor
    · intro _ htwo
      rw [hcount] at htwo
      cases htwo
    · intro _ _
      exact hlength.2 hthree

end

/-- A line of at most 1000 characters, and any database: `ParseAndExec` makes the
calls of the grammar, and no others, exactly if the line is separated. -/
theorem parseAndExec_exact_iff {σ ε : Type} (env : σ → Call → Except ε (σ × Answer)) (s : σ)
    (line : Bytes) (hlen : (trimmed line).length ≤ 1000) :
    Exact (trimmed line) ((parseAndExec line).asked env s) ↔ Separated (trimmed line) := by
  -- two spaces behind `set`
  by_cases hset : (trimmed line).take 3 = CmdType.set ∧ (trimmed line).count space = 2
  · rcases exists_first_word hset.2 with ⟨a, r, ht, ha, hr⟩
    rcases exists_first_word hr with ⟨k, v, rfl, hk, hv⟩
    rw [List.count_eq_zero] at hv
    have hval : v ≠ [] := by
      apply ne_nil_of_trimmed (a := a ++ space :: k)
      rw [ht, List.append_assoc, List.cons_append]
    rw [asked_set ht hset.1 hset.2 ha hv hlen]
    rw [ht] at hset ⊢
    rw [separated_two ha hk hset.1 hset.2]
    exact exact_singleton (by simp) fun c => command_two ha hk hv hval
  -- one space behind `get` or `del`
  by_cases hone : ((trimmed line).take 3 = CmdType.get ∨ (trimmed line).take 3 = CmdType.del) ∧
      (trimmed line).count space = 1
  · rcases exists_first_word hone.2 with ⟨a, k, ht, ha, hk⟩
    rw [List.count_eq_zero] at hk
    have hkey := ne_nil_of_trimmed ht
    have hother : CmdType.get ≠ CmdType.del := by decide
    rcases hone with ⟨hop | hop, hcount⟩
    · rw [asked_get ht hop hcount ha hlen]
      rw [ht] at hop hcount ⊢
      rw [separated_one ha hop (by decide) hcount]
      apply exact_singleton (by simp)
      intro c
      rw [command_one ha hk hkey]
      apply or_iff_left
      rintro ⟨-, rfl⟩
      exact hother hop.symm
    · rw [asked_del ht hop hcount ha hlen]
      rw [ht] at hop hcount ⊢
      rw [separated_one ha hop (by decide) hcount]
      apply exact_singleton (by simp)
      intro c
      rw [command_one ha hk hkey]
      apply or_iff_right
      rintro ⟨-, rfl⟩
      exact hother hop
  -- all other lines are no commands, and are separated
  have hnone : ∀ c, ¬ Command (trimmed line) c := by
    intro c hc
    rcases hc.shape with h | h
    · exact hset h
    · exact hone h
  have hseparated : Separated (trimmed line) :=
    ⟨fun h h2 => absurd ⟨h, h2⟩ hset, fun h h1 => absurd ⟨h, h1⟩ hone⟩
  apply iff_of_true _ hseparated
  by_cases hexit : trimmed line = CmdType.exit
  · rw [asked_exit hexit]
    apply exact_of_not_command hnone
    · simp
    · intro hne
      exact absurd hexit hne
  · rw [asked_other hexit (fun h h2 => hset ⟨h, h2⟩) (fun h h1 => hone ⟨.inl h, h1⟩)
      fun h h1 => hone ⟨.inr h, h1⟩]
    apply exact_of_not_command hnone
    · simp
    · intro _
      rfl

/-- A database that always succeeds and has no keys. -/
def emptyDatabase (s : Unit) (_ : Call) : Except Fault (Unit × Answer) :=
  .ok (s, ⟨Status.success, []⟩)

theorem parseAndExec_exact_iff_set :
    Exact (trimmed (ascii " set a b")) ((parseAndExec (ascii " set a b")).asked emptyDatabase ()) ↔
      Separated (trimmed (ascii " set a b")) :=
  parseAndExec_exact_iff emptyDatabase () (ascii " set a b") (by decide)

/-- `setx a b` is taken for `set a b`. -/
theorem longer_word_executed :
    (parseAndExec (ascii "setx a b")).asked emptyDatabase () = [.put (ascii "a") (ascii "b")] ∧
      ¬ Exact (trimmed (ascii "setx a b"))
        ((parseAndExec (ascii "setx a b")).asked emptyDatabase ()) := by
  have hasked : (parseAndExec (ascii "setx a b")).asked emptyDatabase () =
      [.put (ascii "a") (ascii "b")] := by decide
  refine ⟨hasked, ?_⟩
  rw [hasked]
  intro h
  have hcommand := (h.commands (.put (ascii "a") (ascii "b")) (by decide)).1 List.mem_cons_self
  generalize ht : trimmed (ascii "setx a b") = t at hcommand
  cases hcommand
  exact absurd ht (by decide)

end ParseCMD

end Smallkv
