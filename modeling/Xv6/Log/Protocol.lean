import Xv6.Log.Basic
import Xv6.Lib.Trans
import Mathlib.Data.Finset.Dedup

/-!
# The group-commit protocol

Any number of processes call `begin_op`, `log_write` and `end_op`. One step of
the system is one section of one process that runs under `log.lock`, or one
piece of `commit()`, which runs without it.

* `beginOp p` is one pass through the loop of `begin_op`: the process is
  admitted, or goes to sleep on `&log`.
* `logCheck p b` is the test `log_write` makes before it takes the lock, and
  `logAppend p` is the section under the lock.
* `endOp p` is the section of `end_op` under the lock. The last operation to
  end becomes the committer.
* `commitStep p` is one piece of the committer's work: one iteration of
  `write_log`, the header write with the installation after it, the reset
  `log.lh.n = 0`, and last the section that clears `log.committing`.
* `kill p` wakes a sleeping process without a reason.

A panic stops the machine. So does storing past the end of `log.lh.block`,
which the code does not check for.

`group` is history, and no step reads it: the operations that began since the
last commit, each with the blocks it has logged and whether it has ended.
-/

namespace Xv6

open Trans

/-! ## The system -/

inductive LogPc where
  | out
  /-- In `begin_op`, about to take the lock again after a wakeup. -/
  | waiting
  /-- In `begin_op`, `SLEEPING` on `&log`. -/
  | sleeping
  | inOp
  /-- In `log_write(b)`, between its tests and the lock. -/
  | logging (b : UInt32)
  /-- In `write_log`, with the blocks copied so far. -/
  | writing (blocks : List Nat)
  /-- In `commit()`, past `write_head`, with the blocks that were written. -/
  | committed (blocks : List Nat)
  /-- Past `commit()`, about to take the lock. -/
  | finishing
deriving DecidableEq, Repr

/-- The process is between `begin_op` and `end_op`. -/
def LogPc.isInOp : LogPc → Bool
  | .inOp => true
  | .logging _ => true
  | _ => false

def LogPc.isCommit : LogPc → Bool
  | .writing _ => true
  | .committed _ => true
  | .finishing => true
  | _ => false

inductive LogHalt where
  /-- `panic("too big a transaction")`. -/
  | tooBig
  /-- `panic("log_write outside of trans")`. -/
  | outsideTrans
  /-- `panic("log.committing")`. -/
  | committing
  /-- A store past the end of `log.lh.block`. -/
  | overrun
deriving DecidableEq, Repr

/-- An operation that began since the last commit. -/
structure LogOp where
  pid : Nat
  /-- The distinct blocks it has logged. -/
  blocks : List Nat
  /-- Whether it has called `end_op`. -/
  ended : Bool
deriving DecidableEq, Repr

/-- The log, the processes and the history since the last commit. -/
structure LogSys where
  log : Log
  pc : Nat → LogPc
  /-- The operations since the last commit. -/
  group : List LogOp
  /-- Set when the machine has stopped. -/
  halted : Option LogHalt

/-- The test of `begin_op`: this op might exhaust log space. -/
def Log.full (lg : Log) : Prop :=
  (lg.lh.n : Int) + (lg.outstanding + 1) * (MAXOPBLOCKS : Int) > (LOGSIZE : Int)

instance (lg : Log) : Decidable lg.full := inferInstanceAs (Decidable (_ > _))

/-- The first test of `log_write`. -/
def Log.tooBig (lg : Log) : Prop := lg.lh.n ≥ LOGSIZE ∨ (lg.lh.n : Int) ≥ (lg.size : Int) - 1

instance (lg : Log) : Decidable lg.tooBig := inferInstanceAs (Decidable (_ ∨ _))

/-- `wakeup(&log)`. -/
def wakeupLog (pc : Nat → LogPc) (p : Nat) : LogPc :=
  if pc p = .sleeping then .waiting else pc p

/-- Log a block in the operation that `p` runs. -/
def logBlock (p b : Nat) (o : LogOp) : LogOp :=
  if o.pid = p ∧ o.ended = false then { o with blocks := o.blocks.insert b } else o

/-- End the operation that `p` runs. -/
def endBy (p : Nat) (o : LogOp) : LogOp :=
  if o.pid = p ∧ o.ended = false then { o with ended := true } else o

inductive LogEvent where
  | beginOp (p : Nat)
  | logCheck (p : Nat) (b : UInt32)
  | logAppend (p : Nat)
  | endOp (p : Nat)
  | commitStep (p : Nat)
  | kill (p : Nat)
deriving DecidableEq, Repr

namespace LogSys

def goto (s : LogSys) (p : Nat) (c : LogPc) : LogSys := { s with pc := Function.update s.pc p c }

/-- One pass through the loop of `begin_op`. -/
def beginOp (s : LogSys) (p : Nat) : Option LogSys :=
  if s.pc p = .out ∨ s.pc p = .waiting then
    if s.log.committing then some (s.goto p .sleeping)
    else if s.log.full then some (s.goto p .sleeping)
    else some { s with
      log := { s.log with outstanding := s.log.outstanding + 1 }
      pc := Function.update s.pc p .inOp
      group := s.group ++ [⟨p, [], false⟩] }
  else none

/-- The tests of `log_write`, made without the lock. -/
def logCheck (s : LogSys) (p : Nat) (b : UInt32) : Option LogSys :=
  if s.pc p = .inOp then
    if s.log.tooBig then some { s with halted := some .tooBig }
    else if s.log.outstanding < 1 then some { s with halted := some .outsideTrans }
    else some (s.goto p (.logging b))
  else none

/-- The section of `log_write` under the lock. -/
def logAppend (s : LogSys) (p : Nat) : Option LogSys :=
  match s.pc p with
  | .logging b =>
    if s.log.lh.scan b < LOGSIZE then
      some { s with
        log := { s.log with lh := s.log.lh.add b }
        pc := Function.update s.pc p .inOp
        group := s.group.map (logBlock p b.toNat) }
    else some { s with halted := some .overrun }
  | _ => none

/-- The section of `end_op` under the lock. -/
def endOp (s : LogSys) (p : Nat) : Option LogSys :=
  if s.pc p = .inOp then
    let lg := { s.log with outstanding := s.log.outstanding - 1 }
    if lg.committing then some { s with log := lg, halted := some .committing }
    else if lg.outstanding = 0 then
      some { s with
        log := { lg with committing := true }
        pc := Function.update s.pc p (.writing [])
        group := s.group.map (endBy p) }
    else
      some { s with
        log := lg
        pc := Function.update (wakeupLog s.pc) p .out
        group := s.group.map (endBy p) }
  else none

/-- One piece of the committer's work. With `lh.n = 0` there is nothing to write
and `commit()` does nothing, which is the path through `committed []`. -/
def commitStep (s : LogSys) (p : Nat) : Option LogSys :=
  match s.pc p with
  | .writing w =>
    if w.length < s.log.lh.n then some (s.goto p (.writing (w ++ [s.log.lh.home w.length])))
    else some (s.goto p (.committed w))
  | .committed _ =>
    some { s with log := s.log.clear, pc := Function.update s.pc p .finishing, group := [] }
  | .finishing =>
    some { s with
      log := { s.log with committing := false }
      pc := Function.update (wakeupLog s.pc) p .out }
  | _ => none

/-- `kill` wakes a sleeping process. -/
def kill (s : LogSys) (p : Nat) : Option LogSys :=
  if s.pc p = .sleeping then some (s.goto p .waiting) else none

/-- One step. A stopped machine takes none. -/
def step (s : LogSys) (e : LogEvent) : Option LogSys :=
  if s.halted = none then
    match e with
    | .beginOp p => s.beginOp p
    | .logCheck p b => s.logCheck p b
    | .logAppend p => s.logAppend p
    | .endOp p => s.endOp p
    | .commitStep p => s.commitStep p
    | .kill p => s.kill p
  else none

def active (s : LogSys) : List LogOp := s.group.filter fun o => !o.ended

/-- The distinct blocks that the operations since the last commit have logged. -/
def logged (s : LogSys) : Finset Nat := (s.group.flatMap LogOp.blocks).toFinset

end LogSys

/-- The system after `initlog`, with a log area of `size` blocks at `start`. -/
def LogSys.init (start size : Nat) : LogSys :=
  ⟨⟨start, size, 0, false, .empty⟩, fun _ => .out, [], none⟩

end Xv6
