import Smallkv.Cli.Parse
import Smallkv.DB.FreshPuts

/-!
# Cli.Session — the loop of the command line

`main` prints a prompt, reads a line, hands it to `ParseAndExec` and prints what
comes back, until a line says `exit`. Whoever sits in front of it and takes the
store for a map from words to words (`Talk`) is right about every character that
the loop prints, as long as no key is set to another value before it was deleted.
The lines of the logger, which go to the same terminal, are left out.
-/

namespace Smallkv

open Fallible Assoc DBImpl

namespace Cli

open ParseCMD

/-! ## The loop -/

def newline : Byte := 10

def printWelcome : Bytes :=
  ascii "=======================" ++ [newline] ++ ascii "Hello from smallkv-cli." ++ [newline] ++
    ascii "=======================" ++ [newline]

def printStart : Bytes := ascii "smallkv> "

def printResult (result : Bytes) : Bytes := result ++ [newline]

/-- The process: the database and what `main` has printed, without the lines of the
logger. Behind `exit` it has ended. -/
structure Console where
  db : DBImpl
  output : Bytes
  ended : Bool

/-- A line, with the coin flips that its call sees. -/
abbrev Input := Bytes × List Bool

/-- `main`, up to its loop. -/
def start (options : Options) (disk : Disk) : Console := ⟨openDB options disk, printWelcome, false⟩

/-- One round of the loop. -/
def turn (host : Host) (sst : SstFormat) (s : Console) (input : Input) : Exec Console :=
  if s.ended then pure s
  else do
    let (db, reply) ← (parseAndExec input.1).run (answer host sst input.2) s.db
    match reply with
    -- `std::terminate`
    | none => pure ⟨db, s.output ++ printStart, true⟩
    | some result => pure ⟨db, s.output ++ printStart ++ printResult result, false⟩

/-! ## A map with words for keys -/

/-- What stands between the spaces. -/
def words : Bytes → List Bytes
  | [] => [[]]
  | c :: t =>
    if c = space then [] :: words t
    else
      match words t with
      | [] => [[c]]
      | w :: ws => (c :: w) :: ws

/-- The call a line stands for, if it stands for one. -/
def commandOf (t : Bytes) : Option ParseCMD.Call :=
  if 1000 < t.length then none
  else
    match words t with
    | [_, key, value] => if t.take 3 = CmdType.set then some (.put key value) else none
    | [_, key] =>
      if t.take 3 = CmdType.get then some (.get key)
      else if t.take 3 = CmdType.del then some (.delete key)
      else none
    | _ => none

/-- What is said about a line that stands for no call. -/
def complaint (t : Bytes) : Bytes :=
  if t = [] then []
  else if t.length < 3 then ExecStatus.unknownCmd ++ ascii ": " ++ t
  else if 1000 < t.length then ExecStatus.tooLongCmd
  else if t.take 3 ∈ [CmdType.set, CmdType.get, CmdType.del] then ExecStatus.syntaxErr
  else ExecStatus.unknownCmd ++ ascii ": " ++ t.take 3

/-- A value as it is shown. -/
def shown (v : Option Bytes) : Bytes := if v.getD [] = [] then ExecStatus.notFound else v.getD []

/-- The store as it is taken to be. -/
structure Talk where
  values : Bytes → Option Bytes
  output : Bytes
  ended : Bool

namespace Talk

def start : Talk := ⟨fun _ => none, printWelcome, false⟩

def say (s : Talk) (values : Bytes → Option Bytes) (result : Bytes) : Talk :=
  ⟨values, s.output ++ printStart ++ printResult result, false⟩

def turn (s : Talk) (line : Bytes) : Talk :=
  let t := trimmed line
  if s.ended then s
  else if t = CmdType.exit then { s with output := s.output ++ printStart, ended := true }
  else
    match commandOf t with
    | some (.put key value) =>
      s.say (Function.update s.values (cString key) (some (cString value))) ExecStatus.ok
    | some (.get key) => s.say s.values (shown (s.values (cString key)))
    | some (.delete key) =>
      s.say (Function.update s.values (cString key) none) ExecStatus.successDeletedOne
    | _ => s.say s.values (complaint t)

end Talk

/-- The operations that a line stands for. -/
def opsOf (input : Input) : List Op :=
  match commandOf (trimmed input.1) with
  | some (.put key value) => [.write (.put input.2 key value)]
  | some (.get key) => [.get key]
  | some (.delete key) => [.write (.delete input.2 key)]
  | _ => []

/-- The operations of a session, up to its `exit`. -/
def operations (inputs : List Input) : List Op :=
  (inputs.takeWhile fun input => trimmed input.1 ≠ CmdType.exit).flatMap opsOf

/-! ## Lines -/

theorem words_append {a : Bytes} (ha : space ∉ a) (r : Bytes) :
    words (a ++ space :: r) = a :: words r := by
  induction a with
  | nil => simp [words]
  | cons c a ih =>
      rw [List.mem_cons, not_or] at ha
      rw [List.cons_append, words, if_neg (Ne.symm ha.1), ih ha.2]

theorem words_word {a : Bytes} (ha : space ∉ a) : words a = [a] := by
  induction a with
  | nil => rfl
  | cons c a ih =>
      rw [List.mem_cons, not_or] at ha
      rw [words, if_neg (Ne.symm ha.1), ih ha.2]

theorem length_words {t : Bytes} {n : ℕ} (h : t.count space = n) : (words t).length = n + 1 := by
  induction n generalizing t with
  | zero =>
      rw [words_word (List.count_eq_zero.1 h)]
      rfl
  | succ n ih =>
      rcases exists_first_word h with ⟨a, r, rfl, ha, hr⟩
      rw [words_append ha, List.length_cons, ih hr]

/-- The lines that begin with the name of a command and have as many words as it. -/
inductive Reads (t : Bytes) : Option ParseCMD.Call → Prop
  | put {a k v : Bytes} (ht : t = a ++ space :: (k ++ space :: v)) (hop : t.take 3 = CmdType.set)
      (hcount : t.count space = 2) (ha : space ∉ a) (hv : space ∉ v) : Reads t (some (.put k v))
  | get {a k : Bytes} (ht : t = a ++ space :: k) (hop : t.take 3 = CmdType.get)
      (hcount : t.count space = 1) (ha : space ∉ a) : Reads t (some (.get k))
  | delete {a k : Bytes} (ht : t = a ++ space :: k) (hop : t.take 3 = CmdType.del)
      (hcount : t.count space = 1) (ha : space ∉ a) : Reads t (some (.delete k))
  | other (hset : t.take 3 = CmdType.set → t.count space ≠ 2)
      (hget : t.take 3 = CmdType.get → t.count space ≠ 1)
      (hdel : t.take 3 = CmdType.del → t.count space ≠ 1) : Reads t none

theorem commandOf_reads {t : Bytes} (hlen : t.length ≤ 1000) : Reads t (commandOf t) := by
  unfold commandOf
  rw [if_neg hlen.not_gt]
  have hcount := length_words (t := t) rfl
  rcases Nat.lt_trichotomy (t.count space) 1 with hzero | hone | hmore
  · -- one word
    rw [words_word (List.count_eq_zero.1 (by omega))]
    exact .other (fun _ => by omega) (fun _ => by omega) fun _ => by omega
  · rcases exists_first_word hone with ⟨a, k, ht, ha, hk⟩
    rw [ht, words_append ha, words_word (List.count_eq_zero.1 hk), ← ht]
    dsimp only
    by_cases hget : t.take 3 = CmdType.get
    · rw [if_pos hget]
      exact .get ht hget hone ha
    rw [if_neg hget]
    by_cases hdel : t.take 3 = CmdType.del
    · rw [if_pos hdel]
      exact .delete ht hdel hone ha
    rw [if_neg hdel]
    exact .other (fun _ => by omega) (fun h => absurd h hget) fun h => absurd h hdel
  · by_cases htwo : t.count space = 2
    · rcases exists_first_word htwo with ⟨a, r, ht, ha, hr⟩
      rcases exists_first_word hr with ⟨k, v, rfl, hk, hv⟩
      have hv' := List.count_eq_zero.1 hv
      rw [ht, words_append ha, words_append hk, words_word hv', ← ht]
      dsimp only
      by_cases hset : t.take 3 = CmdType.set
      · rw [if_pos hset]
        exact .put ht hset htwo ha hv'
      · rw [if_neg hset]
        exact .other (fun h => absurd h hset) (fun _ => by omega) fun _ => by omega
    · split
      · rename_i heq
        rw [heq] at hcount
        simp only [List.length_cons, List.length_nil] at hcount
        omega
      · rename_i heq
        rw [heq] at hcount
        simp only [List.length_cons, List.length_nil] at hcount
        omega
      · exact .other (fun _ => htwo) (fun _ => by omega) fun _ => by omega

/-! ## What `ParseAndExec` makes of a line -/

theorem parse_put {line a k v : Bytes} (ht : trimmed line = a ++ space :: (k ++ space :: v))
    (hop : (trimmed line).take 3 = CmdType.set) (hcount : (trimmed line).count space = 2)
    (ha : space ∉ a) (hv : space ∉ v) (hlen : (trimmed line).length ≤ 1000) :
    parseAndExec line = .ask (.put k v) fun a => .done (some
      (if a.status.code ≠ Status.success.code then ExecStatus.execFailed else ExecStatus.ok)) := by
  rcases name_checks hop (by decide) with ⟨hempty, hexit, hshort⟩
  rcases pair_behind_space ht ha hv hlen with ⟨hkey, hval⟩
  unfold parseAndExec
  simp only [trim_eq, if_neg hempty, if_neg hexit, if_neg hshort, if_neg hlen.not_gt, hop, hcount,
    if_true, ne_eq, not_true_eq_false, if_false, hkey, hval]

theorem parse_get {line a k : Bytes} (ht : trimmed line = a ++ space :: k)
    (hop : (trimmed line).take 3 = CmdType.get) (hcount : (trimmed line).count space = 1)
    (ha : space ∉ a) (hlen : (trimmed line).length ≤ 1000) :
    parseAndExec line = .ask (.get k) fun a => .done (some
      (if a.status.code ≠ Status.success.code then ExecStatus.execFailed
      else if a.value = [] then ExecStatus.notFound
      else a.value)) := by
  rcases name_checks hop (by decide) with ⟨hempty, hexit, hshort⟩
  have hkey := key_behind_space ht ha hlen
  have hset : CmdType.get ≠ CmdType.set := by decide
  unfold parseAndExec
  simp only [trim_eq, if_neg hempty, if_neg hexit, if_neg hshort, if_neg hlen.not_gt, hop, hcount,
    if_neg hset, if_true, ne_eq, not_true_eq_false, if_false, hkey]

theorem parse_delete {line a k : Bytes} (ht : trimmed line = a ++ space :: k)
    (hop : (trimmed line).take 3 = CmdType.del) (hcount : (trimmed line).count space = 1)
    (ha : space ∉ a) (hlen : (trimmed line).length ≤ 1000) :
    parseAndExec line = .ask (.delete k) fun a => .done (some
      (if a.status.code ≠ Status.success.code then ExecStatus.execFailed
      else ExecStatus.successDeletedOne)) := by
  rcases name_checks hop (by decide) with ⟨hempty, hexit, hshort⟩
  have hkey := key_behind_space ht ha hlen
  have hset : CmdType.del ≠ CmdType.set := by decide
  have hget : CmdType.del ≠ CmdType.get := by decide
  unfold parseAndExec
  simp only [trim_eq, if_neg hempty, if_neg hexit, if_neg hshort, if_neg hlen.not_gt, hop, hcount,
    if_neg hset, if_neg hget, if_true, ne_eq, not_true_eq_false, if_false, hkey]

theorem parse_exit {line : Bytes} (ht : trimmed line = CmdType.exit) :
    parseAndExec line = .ask .close fun _ => .done none := by
  have hempty : CmdType.exit ≠ CmdType.empty := by decide
  unfold parseAndExec
  simp only [trim_eq, ht, if_neg hempty, if_true]

theorem parse_other {line : Bytes} (hexit : trimmed line ≠ CmdType.exit)
    (hreads : (trimmed line).length ≤ 1000 → Reads (trimmed line) none) :
    parseAndExec line = .done (some (complaint (trimmed line))) := by
  unfold parseAndExec complaint
  simp only [trim_eq, if_neg hexit, CmdType.empty]
  split
  · rfl
  split
  · rfl
  split
  · rfl
  rename_i hlen
  rcases hreads (not_lt.1 hlen) with _ | _ | _ | ⟨hset, hget, hdel⟩
  by_cases hset' : (trimmed line).take 3 = CmdType.set
  · simp only [if_pos (hset hset'), hset', List.mem_cons, true_or, if_true]
  by_cases hget' : (trimmed line).take 3 = CmdType.get
  · simp only [if_neg hset', if_pos hget', if_pos (hget hget')]
    rw [if_pos (by simp [hget'])]
  by_cases hdel' : (trimmed line).take 3 = CmdType.del
  · simp only [if_neg hset', if_neg hget', if_pos hdel', if_pos (hdel hdel')]
    rw [if_pos (by simp [hdel'])]
  · simp only [if_neg hset', if_neg hget', if_neg hdel']
    rw [if_neg (by simp [hset', hget', hdel'])]

/-! ## One round -/

variable {host : Host} {sst : SstFormat} {db db' : DBImpl} {s s' : Console} {input : Input}

/-- What comes of a line that is not `exit`. -/
inductive Replies (host : Host) (sst : SstFormat) (db db' : DBImpl) (input : Input) : Bytes → Prop
  | put {key value : Bytes} (hcommand : commandOf (trimmed input.1) = some (.put key value))
      (hrun : db.write host sst (.put input.2 key value) = .ok db') :
      Replies host sst db db' input ExecStatus.ok
  | delete {key : Bytes} (hcommand : commandOf (trimmed input.1) = some (.delete key))
      (hrun : db.write host sst (.delete input.2 key) = .ok db') :
      Replies host sst db db' input ExecStatus.successDeletedOne
  | get {key out : Bytes} {status : DBStatus}
      (hcommand : commandOf (trimmed input.1) = some (.get key))
      (hrun : db.get host sst key [] = .ok (db', status, out)) :
      Replies host sst db db' input
        (if status.code ≠ Status.success.code then ExecStatus.execFailed
        else if out = [] then ExecStatus.notFound
        else out)
  | none (hcommand : commandOf (trimmed input.1) = none) (hdb : db' = db) :
      Replies host sst db db' input (complaint (trimmed input.1))

/-- `Put` and `Delete` return `Success` or do not return. -/
theorem put_success {flips : List Bool} {key value : Bytes} {status : DBStatus}
    (hrun : db.put host sst flips key value = .ok (db', status)) :
    status = Status.success ∧ db.write host sst (.put flips key value) = .ok db' := by
  constructor
  · rcases bind_eq_ok.1 hrun with ⟨_, -, hput⟩
    rcases bind_eq_ok.1 hput with ⟨_, -, hput⟩
    rcases bind_eq_ok.1 hput with ⟨_, -, hput⟩
    rcases bind_eq_ok.1 hput with ⟨_, -, hput⟩
    rcases bind_eq_ok.1 hput with ⟨_, -, hput⟩
    cases hput
    rfl
  · rw [write, hrun]
    rfl

theorem delete_success {flips : List Bool} {key : Bytes} {status : DBStatus}
    (hrun : db.delete host sst flips key = .ok (db', status)) :
    status = Status.success ∧ db.write host sst (.delete flips key) = .ok db' := by
  constructor
  · rcases bind_eq_ok.1 hrun with ⟨_, -, hdelete⟩
    rcases bind_eq_ok.1 hdelete with ⟨_, -, hdelete⟩
    rcases bind_eq_ok.1 hdelete with ⟨_, -, hdelete⟩
    rcases bind_eq_ok.1 hdelete with ⟨_, -, hdelete⟩
    rcases bind_eq_ok.1 hdelete with ⟨_, -, hdelete⟩
    cases hdelete
    rfl
  · rw [write, hrun]
    rfl

/-- The end of the process. -/
structure Ends (host : Host) (sst : SstFormat) (s s' : Console) (input : Input) : Prop where
  line : trimmed input.1 = CmdType.exit
  ended : s'.ended = true
  output : s'.output = s.output ++ printStart
  closed : ∃ status, s.db.close host sst = .ok (s'.db, status)

/-- A round with a reply. -/
structure Goes (host : Host) (sst : SstFormat) (s s' : Console) (input : Input) : Prop where
  line : trimmed input.1 ≠ CmdType.exit
  ended : s'.ended = false
  output : ∃ result, s'.output = s.output ++ printStart ++ printResult result ∧
    Replies host sst s.db s'.db input result

theorem turn_cases (hended : s.ended = false) (hrun : turn host sst s input = .ok s') :
    Ends host sst s s' input ∨ Goes host sst s s' input := by
  unfold turn at hrun
  rw [if_neg (by simp [hended])] at hrun
  rcases bind_eq_ok.1 hrun with ⟨⟨db, reply⟩, hparse, hrun⟩
  by_cases hexit : trimmed input.1 = CmdType.exit
  · rw [parse_exit hexit] at hparse
    rcases bind_eq_ok.1 hparse with ⟨⟨db₁, a⟩, hanswer, hparse⟩
    cases hparse
    rcases bind_eq_ok.1 hanswer with ⟨⟨db₂, status⟩, hclose, hanswer⟩
    cases hanswer
    cases hrun
    exact Or.inl ⟨hexit, rfl, rfl, status, hclose⟩
  · refine Or.inr ?_
    by_cases hlen : (trimmed input.1).length ≤ 1000
    · cases hcommand : commandOf (trimmed input.1) with
      | none =>
          have hreads := commandOf_reads hlen
          rw [hcommand] at hreads
          rw [parse_other hexit fun _ => hreads] at hparse
          cases hparse
          cases hrun
          exact ⟨hexit, rfl, _, rfl, .none hcommand rfl⟩
      | some c =>
          have hreads := commandOf_reads hlen
          rw [hcommand] at hreads
          cases hreads with
          | put ht hop hcount ha hv =>
              rw [parse_put ht hop hcount ha hv hlen] at hparse
              rcases bind_eq_ok.1 hparse with ⟨⟨db₁, a⟩, hanswer, hparse⟩
              cases hparse
              rcases bind_eq_ok.1 hanswer with ⟨⟨db₂, status⟩, hput, hanswer⟩
              cases hanswer
              cases hrun
              rcases put_success hput with ⟨rfl, hwrite⟩
              exact ⟨hexit, rfl, _, rfl, .put hcommand hwrite⟩
          | get ht hop hcount ha =>
              rw [parse_get ht hop hcount ha hlen] at hparse
              rcases bind_eq_ok.1 hparse with ⟨⟨db₁, a⟩, hanswer, hparse⟩
              cases hparse
              rcases bind_eq_ok.1 hanswer with ⟨⟨db₂, status, out⟩, hget, hanswer⟩
              cases hanswer
              cases hrun
              exact ⟨hexit, rfl, _, rfl, .get hcommand hget⟩
          | delete ht hop hcount ha =>
              rw [parse_delete ht hop hcount ha hlen] at hparse
              rcases bind_eq_ok.1 hparse with ⟨⟨db₁, a⟩, hanswer, hparse⟩
              cases hparse
              rcases bind_eq_ok.1 hanswer with ⟨⟨db₂, status⟩, hdelete, hanswer⟩
              cases hanswer
              cases hrun
              rcases delete_success hdelete with ⟨rfl, hwrite⟩
              exact ⟨hexit, rfl, _, rfl, .delete hcommand hwrite⟩
    · have hcommand : commandOf (trimmed input.1) = none := by
        rw [commandOf, if_pos (not_le.1 hlen)]
      rw [parse_other hexit fun hle => absurd hle hlen] at hparse
      cases hparse
      cases hrun
      exact ⟨hexit, rfl, _, rfl, .none hcommand rfl⟩

/-! ## Sessions -/

/-- No line says `exit`. -/
def Open (inputs : List Input) : Prop := ∀ input ∈ inputs, trimmed input.1 ≠ CmdType.exit

theorem operations_of_open {inputs : List Input} (h : Open inputs) :
    operations inputs = inputs.flatMap opsOf := by
  rw [operations, List.takeWhile_eq_self_iff.2 fun input hinput => by simpa using h input hinput]

theorem operations_concat {inputs : List Input} (h : Open inputs) :
    operations (inputs ++ [input]) =
      operations inputs ++ if trimmed input.1 = CmdType.exit then [] else opsOf input := by
  rw [operations_of_open h, operations, List.takeWhile_append_of_pos fun i hi => by simpa using h i hi,
    List.flatMap_append]
  by_cases hexit : trimmed input.1 = CmdType.exit
  · simp [hexit]
  · simp [hexit]

/-- What is behind `exit` does not count. -/
theorem operations_append {inputs : List Input} (h : ¬ Open inputs) (more : List Input) :
    operations (inputs ++ more) = operations inputs := by
  unfold Open at h
  push Not at h
  rcases h with ⟨i, hi, hexit⟩
  rw [operations, operations, List.takeWhile_append, if_neg]
  intro hlen
  have hall := List.takeWhile_eq_self_iff.1 (List.takeWhile_sublist _ |>.eq_of_length hlen) i hi
  simp [hexit] at hall

/-- The talk about the lines. -/
def talk (inputs : List Input) : Talk := (inputs.map Prod.fst).foldl Talk.turn Talk.start

theorem talk_concat (inputs : List Input) (input : Input) :
    talk (inputs ++ [input]) = (talk inputs).turn input.1 := by
  simp [talk]

/-- The values that are talked about are those that were stored last; a deleted one is
stored as the empty one. -/
theorem turn_values {t : Talk} {ws : List Write} (hended : t.ended = false)
    (hvalues : ∀ k, (t.values k).getD [] = (lastStored ws k).getD [])
    (hexit : trimmed input.1 ≠ CmdType.exit) (k : Bytes) :
    ((t.turn input.1).values k).getD [] =
      (lastStored (ws ++ writes (opsOf input)) k).getD [] := by
  unfold Talk.turn opsOf
  simp only [hended, Bool.false_eq_true, if_false, if_neg hexit]
  cases commandOf (trimmed input.1) with
  | none =>
      simp only [Talk.say, writes, List.append_nil]
      exact hvalues k
  | some c =>
      cases c with
      | put key value =>
          simp only [Talk.say, writes, lastStored_concat, Write.key, Write.value,
            Function.update_apply]
          split
          · rfl
          · exact hvalues k
      | get key =>
          simp only [Talk.say, writes, List.append_nil]
          exact hvalues k
      | delete key =>
          simp only [Talk.say, writes, lastStored_concat, Write.key, Write.value,
            Function.update_apply]
          split
          · rfl
          · exact hvalues k
      | close =>
          simp only [Talk.say, writes, List.append_nil]
          exact hvalues k

theorem turn_ended {t : Talk} (hended : t.ended = false) (line : Bytes) :
    (t.turn line).ended = decide (trimmed line = CmdType.exit) := by
  unfold Talk.turn
  simp only [hended, Bool.false_eq_true, if_false]
  by_cases hexit : trimmed line = CmdType.exit
  · simp [hexit]
  · simp only [hexit, decide_false, if_false]
    cases commandOf (trimmed line) with
    | none => rfl
    | some c => cases c <;> rfl

/-- A reply is what was expected, if `Get` reads what was stored last. -/
theorem Replies.expected {result : Bytes} (h : Replies host sst db db' input result) {t : Talk}
    {ws : List Write} (hended : t.ended = false)
    (hvalues : ∀ k, (t.values k).getD [] = (lastStored ws k).getD [])
    (hexit : trimmed input.1 ≠ CmdType.exit)
    (hget : ∀ key status out, db.get host sst key [] = .ok (db', status, out) →
      status = Status.success ∧ lastStored ws (cString key) = some out) :
    (t.turn input.1).output = t.output ++ printStart ++ printResult result := by
  unfold Talk.turn
  simp only [hended, Bool.false_eq_true, if_false, if_neg hexit]
  cases h with
  | put hcommand hrun =>
      rw [hcommand]
      rfl
  | delete hcommand hrun =>
      rw [hcommand]
      rfl
  | none hcommand hdb =>
      rw [hcommand]
      rfl
  | get hcommand hrun =>
      rw [hcommand]
      rcases hget _ _ _ hrun with ⟨rfl, hlast⟩
      simp only [Talk.say, shown, hvalues, hlast, Option.getD_some, ne_eq, not_true_eq_false,
        if_false]

theorem Replies.run_ops {result : Bytes} (h : Replies host sst db db' input result) :
    run (step host sst) db (opsOf input) = .ok db' := by
  unfold opsOf
  cases h with
  | put hcommand hrun =>
      rw [hcommand]
      simp only [run_cons, step, hrun, ok_bind, run_nil]
  | delete hcommand hrun =>
      rw [hcommand]
      simp only [run_cons, step, hrun, ok_bind, run_nil]
  | none hcommand hdb =>
      rw [hcommand, hdb]
      rfl
  | get hcommand hrun =>
      rw [hcommand]
      simp only [run_cons, step, hrun, ok_bind, pure_eq_ok, run_nil]

theorem writes_append (ops more : List Op) : writes (ops ++ more) = writes ops ++ writes more := by
  induction ops with
  | nil => rfl
  | cons op ops ih =>
      cases op with
      | write w => simp only [List.cons_append, writes, ih]
      | get key => simp only [List.cons_append, writes, ih]

variable {fm : FloatMath} {options : Options} {disk : Disk} {inputs : List Input}

/-- The console and the talk about it, as far as the lines go. -/
structure Agrees (host : Host) (fm : FloatMath) (options : Options) (disk : Disk)
    (inputs : List Input) (s : Console) : Prop where
  open_iff : s.ended = false ↔ Open inputs
  ended : (talk inputs).ended = s.ended
  values : s.ended = false → ∀ k,
    ((talk inputs).values k).getD [] = (lastStored (writes (operations inputs)) k).getD []
  output : FreshPuts (writes (operations inputs)) → s.output = (talk inputs).output
  behind : ∃ db, run (step host (sstFormat fm)) (openDB options disk) (operations inputs) = .ok db ∧
    if s.ended then ∃ status, db.close host (sstFormat fm) = .ok (s.db, status) else s.db = db

theorem start_agrees : Agrees host fm options disk [] (start options disk) where
  open_iff := iff_of_true rfl (by simp [Open])
  ended := rfl
  values := fun _ _ => rfl
  output := fun _ => rfl
  behind := ⟨openDB options disk, rfl, rfl⟩

/-- Behind `exit` there are no rounds. -/
theorem Agrees.over (h : Agrees host fm options disk inputs s) (hended : s.ended = true) :
    Agrees host fm options disk (inputs ++ [input]) s := by
  have hclosed : ¬ Open inputs := by
    rw [← h.open_iff, hended]
    simp
  have hstill : ¬ Open (inputs ++ [input]) := fun hopen =>
    hclosed fun i hi => hopen i (List.mem_append_left _ hi)
  have htalk : talk (inputs ++ [input]) = talk inputs := by
    rw [talk_concat, Talk.turn]
    simp only [h.ended, hended, if_true]
  have hops := operations_append hclosed [input]
  exact
    { open_iff := iff_of_false (by simp [hended]) hstill
      ended := by rw [htalk, h.ended]
      values := by
        intro hfalse
        rw [hended] at hfalse
        cases hfalse
      output := by rw [hops, htalk]; exact h.output
      behind := by rw [hops]; exact h.behind }

theorem Agrees.ends (h : Agrees host fm options disk inputs s) (hended : s.ended = false)
    (hends : Ends host (sstFormat fm) s s' input) :
    Agrees host fm options disk (inputs ++ [input]) s' := by
  have hstill : ¬ Open (inputs ++ [input]) := fun hopen =>
    hopen input (by simp) hends.line
  have hops : operations (inputs ++ [input]) = operations inputs := by
    rw [operations_concat (h.open_iff.1 hended), if_pos hends.line, List.append_nil]
  rcases h.behind with ⟨db, hrun, hdb⟩
  rw [if_neg (by simp [hended])] at hdb
  exact
    { open_iff := iff_of_false (by simp [hends.ended]) hstill
      ended := by
        rw [talk_concat, turn_ended (h.ended.trans hended), hends.ended]
        simp [hends.line]
      values := by
        intro hfalse
        rw [hends.ended] at hfalse
        cases hfalse
      output := by
        rw [hops, talk_concat, Talk.turn]
        intro hfresh
        simp only [h.ended, hended, Bool.false_eq_true, if_false, if_pos hends.line]
        rw [hends.output, h.output hfresh]
      behind := by
        rw [hops, hends.ended]
        exact ⟨db, hrun, by rw [if_pos rfl, ← hdb]; exact hends.closed⟩ }

theorem Agrees.goes (h : Agrees host fm options disk inputs s) (hended : s.ended = false)
    (hgoes : Goes host (sstFormat fm) s s' input) :
    Agrees host fm options disk (inputs ++ [input]) s' := by
  have hopen : Open (inputs ++ [input]) := by
    intro i hi
    rcases List.mem_append.1 hi with hi | hi
    · exact h.open_iff.1 hended i hi
    · rw [List.mem_singleton.1 hi]
      exact hgoes.line
  have hops : operations (inputs ++ [input]) = operations inputs ++ opsOf input := by
    rw [operations_concat (h.open_iff.1 hended), if_neg hgoes.line]
  have htalk := h.ended.trans hended
  rcases hgoes.output with ⟨result, houtput, hreplies⟩
  rcases h.behind with ⟨db, hrun, hdb⟩
  rw [if_neg (by simp [hended])] at hdb
  subst hdb
  exact
    { open_iff := iff_of_true hgoes.ended hopen
      ended := by
        rw [talk_concat, turn_ended htalk, hgoes.ended]
        simp [hgoes.line]
      values := by
        intro _
        rw [hops, talk_concat, writes_append]
        exact turn_values htalk (h.values hended) hgoes.line
      output := by
        intro hfresh
        rw [hops, writes_append] at hfresh
        have hbefore : FreshPuts (writes (operations inputs)) :=
          fun before flips key value hpre =>
            hfresh before flips key value (hpre.trans (List.prefix_append _ _))
        rw [talk_concat, hreplies.expected htalk (h.values hended) hgoes.line, houtput,
          h.output hbefore]
        intro key status out hget
        exact run_get_current hrun hbefore hget
      behind := by
        rw [hops, hgoes.ended]
        exact ⟨s'.db, run_append_ok.2 ⟨s.db, hrun, hreplies.run_ops⟩, rfl⟩ }

theorem run_agrees (hrun : run (turn host (sstFormat fm)) (start options disk) inputs = .ok s) :
    Agrees host fm options disk inputs s := by
  refine run_history_invariant (Agrees host fm options disk) start_agrees ?_ hrun
  intro inputs s input s' h hturn
  cases hended : s.ended with
  | true =>
      rw [turn, if_pos hended] at hturn
      cases hturn
      exact h.over hended
  | false =>
      rcases turn_cases hended hturn with hends | hgoes
      · exact h.ends hended hends
      · exact h.goes hended hgoes

end Cli

open Cli

/-- What somebody may type. -/
def typed : List Input :=
  [(ascii " set a b ", []), (ascii "get a", []), (ascii "del a", []), (ascii "gett a", []),
    (ascii "set a c", [true]), (ascii "get a", []), (ascii "help", []), (ascii "get", [])]

end Smallkv
