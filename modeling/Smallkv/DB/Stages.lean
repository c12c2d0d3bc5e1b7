import Smallkv.DB.DBImpl

/-!
# DB.Stages — a write cut into its steps

`Put` and `Delete` are the same four steps on different data. Between them is
where a crash can come, and before the last one is the state that a flush is
compared with.
-/

namespace Smallkv

open Fallible

namespace DBImpl

variable (host : Host) (sst : SstFormat)

/-- The steps of `Put` and `Delete`. -/
inductive Stage where
  | log (key value : Bytes)
  | putMemTable (flips : List Bool) (key value : Bytes)
  | deleteMemTable (flips : List Bool) (key : Bytes)
  | putCache (key value : Bytes)
  | eraseCache (key : Bytes)
  | flush

def execStage (db : DBImpl) : Stage → Exec DBImpl
  | .log key value => db.writeLog host key value
  | .putMemTable flips key value => db.putMemTable flips key value
  | .deleteMemTable flips key => db.deleteMemTable flips key
  | .putCache key value => db.putCache host key value
  | .eraseCache key => db.eraseCache host key
  | .flush => db.flushIfFull host sst

/-- The steps before the flush. -/
def Write.steps : Write → List Stage
  | .put flips key value => [.log key value, .putMemTable flips key value, .putCache key value]
  | .delete flips key => [.log key [], .deleteMemTable flips key, .eraseCache key]

def Write.stages (w : Write) : List Stage := w.steps ++ [.flush]

def stages (ws : List Write) : List Stage := ws.flatMap Write.stages

/-- A write of an open database is the run of its steps. -/
theorem write_eq_run {db : DBImpl} (hopen : db.closed = false) (w : Write) :
    db.write host sst w = run (execStage host sst) db w.stages := by
  cases w with
  | put flips key value =>
      simp only [write, put, require_of hopen, Write.stages, Write.steps, List.cons_append,
        List.nil_append, run_cons, run_nil, execStage, ok_bind, bind_assoc, pure_eq_ok]
  | delete flips key =>
      simp only [write, delete, require_of hopen, Write.stages, Write.steps, List.cons_append,
        List.nil_append, run_cons, run_nil, execStage, ok_bind, bind_assoc, pure_eq_ok]

/-- Only an open database is written to. -/
theorem open_of_write_ok {host : Host} {sst : SstFormat} {db db' : DBImpl} {w : Write}
    (hrun : db.write host sst w = .ok db') : db.closed = false := by
  cases w with
  | put flips key value =>
      rcases bind_eq_ok.1 hrun with ⟨_, hput, _⟩
      rcases bind_eq_ok.1 hput with ⟨_, hopen, _⟩
      exact require_eq_ok.1 hopen
  | delete flips key =>
      rcases bind_eq_ok.1 hrun with ⟨_, hdelete, _⟩
      rcases bind_eq_ok.1 hdelete with ⟨_, hopen, _⟩
      exact require_eq_ok.1 hopen

end DBImpl

end Smallkv
