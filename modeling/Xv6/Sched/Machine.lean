import Mathlib
import Xv6.Param
import Xv6.Lib.Table
import Xv6.Lib.Scan
import Xv6.Lib.Trans

/-!
# Processes, traps and the scheduler

The process table of `proc.c`, the traps of `trap.c` and the loop of
`scheduler()`, on the one CPU there is.

A step is a piece of kernel code that nothing interrupts:

* `scan` is one iteration of the scheduler's loop over the table;
* `idle` is an interrupt the scheduler takes between two rounds;
* `trap` is an interrupt or fault the running process takes, and `resume` is what
  is left of `trap()` when a process that yielded there runs again;
* `sysEntry` and `sysReturn` are the two tests `trap()` makes around a system
  call, and the other steps are what a process does inside one.

`exit()` closes files before it takes the table's lock, so it is two steps: the
process is on its way out (`Pc.exiting`) until `exit`. `fork()` is two steps for
the same reason: `allocproc`, and `forkDone` when the copying is over. A process
in the kernel may take any sequence of the steps a system call is made of.

The numbers are the C `int`s and wrap around. An access outside an array of
times does not happen in the model: the step is not possible, and `accesses`
lists the indices a step would use.
-/

namespace Xv6.Sched

open Table Scan

/-! ## The process table -/

/-- The scheduling policy the kernel is compiled with. -/
inductive Policy where
  | default
  | frr
  | fcfs
deriving DecidableEq, Repr

inductive ProcState where
  | unused
  | embryo
  | sleeping
  | runnable
  | running
  | zombie
deriving DecidableEq, Repr

/-- What a process sleeps on. -/
inductive Chan where
  | ticks
  /-- A slot of the process table. -/
  | proc (p : Fin NPROC)
  | other (n : Nat)
deriving DecidableEq, Repr

/-- Where a process stands. -/
inductive Pc where
  | user
  | kernel
  /-- In `fork()`, with the slot `allocproc` returned. -/
  | forking (child : Fin NPROC)
  /-- In `exit()`, before it takes the lock of the table. -/
  | exiting
deriving DecidableEq, Repr

/-- `struct proc`, without memory and files. -/
structure Proc where
  state : ProcState
  pid : Int32
  parent : Option (Fin NPROC)
  /-- If set, sleeping on it. -/
  chan : Option Chan
  killed : Bool
  /-- Clock ticks of the quantum used up. -/
  slot : Int32
  ctime : Int32
  waitingT : Int32
  runningT : Int32
  /-- Time from creation to exit. -/
  turnaroundT : Int32
  /-- The waiting times of children. -/
  pwaitingT : Fin 10 → Int32
  prunningT : Fin 10 → Int32
  /-- The turnaround times of children. -/
  pturnaroundT : Fin 10 → Int32
  /-- The child whose times are read next. -/
  pidtimes : Int32
  pc : Pc
  /-- It called `yield()` in `trap()` and has not returned from it. -/
  yielded : Bool

/-- A slot of the table before its first process. -/
def Proc.blank : Proc :=
  ⟨.unused, 0, none, none, false, 0, 0, 0, 0, 0, fun _ => 0, fun _ => 0, fun _ => 0, 0, .user, false⟩

structure Sys where
  proc : Fin NPROC → Proc
  nextpid : Int32
  ticks : UInt32
  initproc : Fin NPROC
  /-- `mycpu()->proc`. -/
  cur : Option (Fin NPROC)
  /-- The slot the scheduler looks at next. -/
  scan : Nat

def Sys.set (s : Sys) (i : Fin NPROC) (f : Proc → Proc) : Sys :=
  { s with proc := upd s.proc i (f (s.proc i)) }

/-- The state `userinit()` leaves: the first process is about to run. -/
def boot : Sys where
  proc := upd (fun _ => Proc.blank) 0
    { Proc.blank with state := .runnable, pid := 1, pc := .kernel }
  nextpid := 2
  ticks := 0
  initproc := 0
  cur := none
  scan := 0

/-! ## Sleeping and waking -/

/-- What `wakeup1(chan)` does to one slot. -/
def Proc.wake (p : Proc) (chan : Chan) : Proc :=
  if p.state = .sleeping ∧ p.chan = some chan then { p with state := .runnable } else p

/-- Wake up all processes sleeping on `chan`. -/
def wakeup1 (s : Sys) (chan : Chan) : Sys := { s with proc := fun i => (s.proc i).wake chan }

/-- `swtch` back to the scheduler, which goes on to the next slot. -/
def Sys.leave (s : Sys) : Sys := { s with cur := none, scan := s.scan + 1 }

/-- Give up the CPU for one scheduling round. -/
def yield (s : Sys) (c : Fin NPROC) : Sys :=
  (s.set c fun p => { p with state := .runnable, yielded := true }).leave

def sleep (s : Sys) (c : Fin NPROC) (chan : Chan) : Sys :=
  (s.set c fun p => { p with state := .sleeping, chan := some chan }).leave

/-! ## Creating processes -/

/-- The fields `allocproc` sets in the slot it takes. -/
def Proc.alloc (p : Proc) (pid ctime : Int32) : Proc :=
  { p with
    state := .embryo
    pid := pid
    runningT := 0
    ctime := ctime
    waitingT := 0
    pidtimes := 0 }

/-- `allocproc` up to the allocation of the kernel stack, called by `c`. -/
def allocproc (s : Sys) (c : Fin NPROC) : Sys :=
  match firstFin fun i => decide ((s.proc i).state = .unused) with
  | some i =>
    { (s.set i fun p => p.alloc s.nextpid s.ticks.toInt32).set c fun p =>
        { p with pc := .forking i } with
      nextpid := s.nextpid + 1 }
  | none => s

/-- The rest of `fork()`: there was memory for the child, or there was not. -/
def forkDone (s : Sys) (c i : Fin NPROC) (ok : Bool) : Sys :=
  (s.set i fun p =>
    if ok then { p with state := .runnable, parent := some c, pc := .user, yielded := false }
    else { p with state := .unused }).set c fun p => { p with pc := .kernel }

/-! ## Times of children -/

def timesIndex (i : Int32) : Option (Fin 10) :=
  if h : 0 ≤ i.toInt ∧ i.toInt < 10 then some ⟨i.toInt.toNat, by omega⟩ else none

/-- The running time `runtime()` returns to the process `c`. -/
def runtime (s : Sys) (c : Fin NPROC) : Option Int32 :=
  (timesIndex (s.proc c).pidtimes).map (s.proc c).prunningT

/-- The waiting time `waittime()` returns. -/
def waittime (s : Sys) (c : Fin NPROC) : Option Int32 :=
  (timesIndex (s.proc c).pidtimes).map (s.proc c).pwaitingT

/-- The turnaround time `turntime()` returns. -/
def turntime (s : Sys) (c : Fin NPROC) : Option Int32 :=
  (timesIndex (s.proc c).pidtimes).map (s.proc c).pturnaroundT

/-! ## Exiting -/

/-- The call of `exit()`: `init` must not exit. -/
def exitBegin (s : Sys) (c : Fin NPROC) : Option Sys :=
  if c = s.initproc then none else some (s.set c fun p => { p with pc := .exiting })

/-- `trap()` stores the times and calls `exit()`. -/
def forceExit (s : Sys) (c : Fin NPROC) : Option Sys :=
  exitBegin (s.set c fun p => { p with
    turnaroundT := s.ticks.toInt32 - p.ctime
    waitingT := s.ticks.toInt32 - p.ctime - p.runningT }) c

/-- The index in the arrays of its parent `p` that `c` records its times at. -/
def exitIndex (s : Sys) (c p : Fin NPROC) : Int32 := (s.proc c).pid - (s.proc p).pid - 1

/-- Record the times of `c` at index `k` of its parent's arrays. -/
def Proc.record (p c : Proc) (k : Fin 10) : Proc :=
  { p with
    pwaitingT := upd p.pwaitingT k c.waitingT
    prunningT := upd p.prunningT k c.runningT
    pturnaroundT := upd p.pturnaroundT k c.turnaroundT }

/-- The children of `c` become children of `init`. -/
def reparent (s : Sys) (c : Fin NPROC) : Sys :=
  { s with proc := fun i =>
      if (s.proc i).parent = some c then { s.proc i with parent := some s.initproc } else s.proc i }

/-- A child of `c` is waiting to be reaped. -/
def hasZombieChild (s : Sys) (c : Fin NPROC) : Bool :=
  (firstFin fun i => decide ((s.proc i).parent = some c ∧ (s.proc i).state = .zombie)).isSome

/-- The times of `c` in its parent, if it has one. -/
def recordTimes (s : Sys) (c : Fin NPROC) : Option Sys :=
  match (s.proc c).parent with
  | none => some s
  | some p => (timesIndex (exitIndex s c p)).map fun k => s.set p fun q => q.record (s.proc c) k

/-- The parent might be sleeping in `wait()`. -/
def wakeParent (s : Sys) (c : Fin NPROC) : Sys :=
  (s.proc c).parent.elim s fun p => wakeup1 s (.proc p)

/-- Pass abandoned children to `init`, which might be sleeping in `wait()`. -/
def abandon (s : Sys) (c : Fin NPROC) : Sys :=
  if hasZombieChild s c then wakeup1 (reparent s c) (.proc s.initproc) else reparent s c

/-- The part of `exit()` under the lock of the table. -/
def exitEnd (s : Sys) (c : Fin NPROC) : Option Sys :=
  (recordTimes (wakeParent s c) c).map fun s =>
    ((abandon s c).set c fun p => { p with state := .zombie }).leave

/-! ## Waiting and killing -/

/-- One pass of the loop of `wait()`: a zombie child is reaped, there is nothing to
wait for, or the process sleeps. -/
def wait (s : Sys) (c : Fin NPROC) : Sys :=
  match firstFin fun i =>
      decide ((s.proc i).parent = some c ∧ (s.proc i).state = .zombie) with
  | some i => s.set i fun p => { p with
      pid := 0, parent := none, killed := false, ctime := 0, state := .unused }
  | none =>
    if (firstFin fun i => decide ((s.proc i).parent = some c)).isNone ∨ (s.proc c).killed then s
    else sleep s c (.proc c)

def kill (s : Sys) (pid : Int32) : Sys :=
  match firstFin fun i => decide ((s.proc i).pid = pid) with
  | some i => s.set i fun p => { p with
      killed := true, state := if p.state = .sleeping then .runnable else p.state }
  | none => s

/-! ## Traps -/

/-- The traps that are not system calls. -/
inductive TrapNo where
  | timer
  /-- Another device, which wakes who sleeps on a channel. -/
  | device (n : Nat)
  /-- A fault in user space. -/
  | fault
deriving DecidableEq, Repr

/-- The `switch` of `trap()`. `c` is the running process. -/
def handle (s : Sys) (c : Option (Fin NPROC)) : TrapNo → Sys
  | .timer => wakeup1 { s with ticks := s.ticks + 1 } .ticks
  | .device n => wakeup1 s (.other n)
  | .fault => c.elim s fun c => s.set c fun p => { p with killed := true }

/-- What `trap()` does on a clock tick, by policy. -/
def onTick (pol : Policy) (s : Sys) (c : Fin NPROC) : Sys :=
  match pol with
  | .default => yield s c
  | .frr =>
    if QUANTA ≤ (s.proc c).slot + 1 then yield (s.set c fun p => { p with slot := 0 }) c
    else s.set c fun p => { p with slot := p.slot + 1, runningT := p.runningT + 1 }
  | .fcfs => s.set c fun p => { p with runningT := p.runningT + 1 }

/-- `trap()` of the running process `c`. Its last test repeats the first one, and
finds the same unless the process yielded. -/
def trap (pol : Policy) (s : Sys) (c : Fin NPROC) (no : TrapNo) : Option Sys :=
  let t := handle s (some c) no
  if (t.proc c).killed = true ∧ (t.proc c).pc = .user then forceExit t c
  else if (t.proc c).state = .running ∧ no = .timer then some (onTick pol t c)
  else some t

/-- The last test of `trap()`, after `yield()` returned. -/
def resume (s : Sys) (c : Fin NPROC) : Option Sys :=
  let t := s.set c fun p => { p with yielded := false }
  if (t.proc c).killed = true ∧ (t.proc c).pc = .user then forceExit t c else some t

/-! ## The scheduler -/

/-- The process the body of the loop switches to when it comes to the runnable
process `p`. Under FCFS `firstCome` is declared inside the loop. -/
def choose (pol : Policy) (s : Sys) (p : Fin NPROC) : Fin NPROC :=
  match pol with
  | .default => p
  | .frr => p
  | .fcfs =>
    let firstCome : Option (Fin NPROC) := none
    let firstCome :=
      if 1 < (s.proc p).pid then
        match firstCome with
        | some f => if (s.proc p).ctime < (s.proc f).ctime then some p else some f
        | none => some p
      else firstCome
    firstCome.getD p

/-- Switch to the process `p`. A process that slept clears `chan` first thing. -/
def dispatch (s : Sys) (p : Fin NPROC) : Sys :=
  { s.set p fun q => { q with state := .running, chan := none } with cur := some p, scan := p.val }

/-- One iteration of the loop over the table, or the start of a new round. -/
def scanStep (pol : Policy) (s : Sys) : Sys :=
  if h : s.scan < NPROC then
    if (s.proc ⟨s.scan, h⟩).state = .runnable then dispatch s (choose pol s ⟨s.scan, h⟩)
    else { s with scan := s.scan + 1 }
  else { s with scan := 0 }

/-! ## Steps -/

inductive Event where
  | scan
  | idle (no : TrapNo)
  | trap (no : TrapNo)
  | resume
  | sysEntry
  | sysReturn
  | sysExit
  | allocproc
  | forkDone (ok : Bool)
  | wait
  | kill (pid : Int32)
  | sleep (chan : Chan)
  | wakeup (chan : Chan)
  | runtime
  | waittime
  | turntime
  | exit
deriving DecidableEq, Repr

/-- A step of the running process `c`, which has returned from its last `yield`. -/
def procStep (pol : Policy) (s : Sys) (c : Fin NPROC) (e : Event) : Option Sys :=
  match e, (s.proc c).pc with
  | .trap .fault, .user => trap pol s c .fault
  | .trap .fault, _ => none
  | .trap no, _ => trap pol s c no
  | .sysEntry, .user =>
    if (s.proc c).killed then exitBegin s c else some (s.set c fun p => { p with pc := .kernel })
  | .sysReturn, .kernel =>
    if (s.proc c).killed then exitBegin s c else some (s.set c fun p => { p with pc := .user })
  | .sysExit, .kernel => exitBegin s c
  | .allocproc, .kernel => some (allocproc s c)
  | .forkDone ok, .forking i => some (forkDone s c i ok)
  | .wait, .kernel => some (wait s c)
  | .kill pid, .kernel => some (kill s pid)
  | .sleep chan, .kernel => some (sleep s c chan)
  | .sleep chan, .exiting => some (sleep s c chan)
  | .wakeup chan, .kernel => some (wakeup1 s chan)
  | .wakeup chan, .exiting => some (wakeup1 s chan)
  | .runtime, .kernel => (runtime s c).map fun _ => s
  | .waittime, .kernel => (waittime s c).map fun _ => s
  | .turntime, .kernel => (turntime s c).map fun _ =>
    s.set c fun p => { p with pidtimes := p.pidtimes + 1 }
  | .exit, .exiting => exitEnd s c
  | _, _ => none

def step (pol : Policy) (s : Sys) (e : Event) : Option Sys :=
  match e, s.cur with
  | .scan, none => some (scanStep pol s)
  | .idle .fault, none => none
  | .idle no, none => if s.scan = 0 then some (handle s none no) else none
  | .resume, some c => if (s.proc c).yielded then resume s c else none
  | e, some c => if (s.proc c).yielded then none else procStep pol s c e
  | _, none => none

end Xv6.Sched
