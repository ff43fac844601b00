import Xv6.Log.Protocol
import Xv6.Disk.Extent
import Xv6.Lib.Hoare
import Xv6.Lib.Scan

/-!
# The state of the file system

What the file system code of one kernel reads and writes: the blocks of the
disk, the log, the inode cache, the file table and the processes' descriptors
and current directories.

* `blk b` is what `bread(b)` returns. The buffer cache and the log decide when
  the disk holds it; no function of the file system can tell.
* A pointer to an entry of a table is its index.
* One process runs at a time, and a system call runs to its end before the next
  one begins. A process that would have to wait can only be waiting for itself,
  so it stops there for good: `Stop.asleep`.
-/

namespace Xv6

open Hoare Table

/-! ## Panics -/

/-- The calls of `panic` in the code modelled here. -/
inductive Panic where
  /-- "too big a transaction" -/
  | tooBig
  /-- "log_write outside of trans" -/
  | outsideTrans
  /-- "log.committing" -/
  | committing
  /-- "balloc: out of blocks" -/
  | outOfBlocks
  /-- "freeing free block" -/
  | freeBlock
  /-- "ialloc: no inodes" -/
  | iallocNoInodes
  /-- "iget: no inodes" -/
  | igetNoInodes
  /-- "ilock" -/
  | ilock
  /-- "ilock: no type" -/
  | noType
  /-- "iunlock" -/
  | iunlock
  /-- "bmap: out of range" -/
  | bmapRange
  /-- "dirlookup not DIR" -/
  | notDir
  /-- "dirlookup read" -/
  | dirlookupRead
  /-- "dirlink read" -/
  | dirlinkRead
  /-- "dirlink" -/
  | dirlink
  /-- "isdirempty: readi" -/
  | isdirempty
  /-- "unlink: nlink < 1" -/
  | unlinkNlink
  /-- "unlink: writei" -/
  | unlinkWritei
  /-- "create dots" -/
  | createDots
  /-- "create: dirlink" -/
  | createDirlink
  /-- "filedup" -/
  | filedup
  /-- "fileclose" -/
  | fileclose
  /-- "fileread" -/
  | fileread
  /-- "filewrite" -/
  | filewrite
  /-- "short filewrite" -/
  | shortFilewrite
deriving DecidableEq, Repr

inductive Stop where
  | panic (p : Panic)
  /-- The process sleeps and nothing is left to wake it. -/
  | asleep
deriving DecidableEq, Repr

/-! ## The state -/

/-- `struct inode`: the in-memory copy of an inode. -/
structure Inode where
  dev : Nat
  inum : Nat
  ref : Nat
  lock : Option (Fin NPROC)
  /-- Inode has been read from disk? -/
  valid : Bool
  din : Dinode
deriving DecidableEq, Repr

inductive FdType where
  | none
  | pipe
  | inode
deriving DecidableEq, Repr

structure File where
  /-- `FD_NONE`, `FD_PIPE` or `FD_INODE`. -/
  type : FdType
  ref : Nat
  readable : Bool
  writable : Bool
  /-- The inode, if it is open on one. -/
  ip : Fin NINODE
  /-- The offset of the next read or write. -/
  off : Nat
deriving DecidableEq, Repr

/-- What the file system reads of a `struct proc`. -/
structure Proc where
  /-- The slot of the process table is in use. -/
  live : Bool
  cwd : Fin NINODE
  ofile : Fin NOFILE → Option (Fin NFILE)

/-- The state the file system code works on. -/
structure Fs where
  sb : Superblock
  blk : Nat → Block
  log : Log
  icache : Fin NINODE → Inode
  ftable : Fin NFILE → File
  proc : Fin NPROC → Proc
  cur : Fin NPROC
  /-- What reads of the console and of pipes will return. -/
  input : Nat → Option (List UInt8)

abbrev Kern (α : Type) : Type := Prog Fs Stop α

/-- `panic(..)`. -/
def panic {α : Type} (p : Panic) : Kern α := throw (.panic p)

@[simp] theorem wp_panic {α : Type} {p : Panic} {s : Fs} {Q : α → Fs → Prop} {E : Stop → Prop} :
    Wp (panic p : Kern α) s Q E ↔ E (.panic p) := wp_throw

/-! ## Changing one entry of a table -/

def Fs.setInode (s : Fs) (k : Fin NINODE) (f : Inode → Inode) : Fs :=
  { s with icache := upd s.icache k (f (s.icache k)) }

def Fs.setFile (s : Fs) (i : Fin NFILE) (f : File → File) : Fs :=
  { s with ftable := upd s.ftable i (f (s.ftable i)) }

def Fs.setProc (s : Fs) (p : Fin NPROC) (f : Proc → Proc) : Fs :=
  { s with proc := upd s.proc p (f (s.proc p)) }

def Fs.setBlk (s : Fs) (b : Nat) (v : Block) : Fs := { s with blk := upd s.blk b v }

section

variable (s : Fs) (k : Fin NINODE) (f : Inode → Inode)

@[simp] theorem Fs.sb_setInode : (s.setInode k f).sb = s.sb := rfl
@[simp] theorem Fs.blk_setInode : (s.setInode k f).blk = s.blk := rfl
@[simp] theorem Fs.icache_setInode : (s.setInode k f).icache = upd s.icache k (f (s.icache k)) := rfl
@[simp] theorem Fs.log_setBlk (b : Nat) (v : Block) : (s.setBlk b v).log = s.log := rfl

end

/-- The in-memory inode `ip` points to. -/
def inode (k : Fin NINODE) : Kern Inode := return (← get).icache k

def setInode (k : Fin NINODE) (f : Inode → Inode) : Kern Unit := modify fun s => s.setInode k f

def myproc : Kern Proc := return (← get).proc (← get).cur

/-! ## The log, from one process -/

/-- Called at the start of each FS system call. -/
def beginOp : Kern Unit := do
  let s ← get
  if s.log.committing then throw .asleep
  else if s.log.full then throw .asleep
  else set { s with log := { s.log with outstanding := s.log.outstanding + 1 } }

/-- Called at the end of each FS system call. The last one commits, which
leaves every block as the buffers hold it and the header empty. -/
def endOp : Kern Unit := do
  let s ← get
  let lg := { s.log with outstanding := s.log.outstanding - 1 }
  if lg.committing then panic .committing
  else if lg.outstanding = 0 then set { s with log := lg.clear }
  else set { s with log := lg }

/-- `log_write` of the buffer of block `b`. -/
def logWrite (b : Nat) : Kern Unit := do
  let s ← get
  if s.log.tooBig then panic .tooBig
  else if s.log.outstanding < 1 then panic .outsideTrans
  else set { s with log := { s.log with lh := s.log.lh.add (UInt32.ofNat b) } }

/-- The contents of the buffer of block `b`. -/
def bread (b : Nat) : Kern Block := return (← get).blk b

/-- Change the contents of the buffer of block `b` to `v` and `log_write` it. -/
def bput (b : Nat) (v : Block) : Kern Unit := do
  modify fun s => s.setBlk b v
  logWrite b

/-! ## Sleep locks -/

def acquiresleep (k : Fin NINODE) : Kern Unit := do
  let s ← get
  if (s.icache k).lock.isSome then throw .asleep
  else setInode k fun ip => { ip with lock := some s.cur }

def releasesleep (k : Fin NINODE) : Kern Unit := setInode k fun ip => { ip with lock := none }

def Fs.holdingsleep (s : Fs) (k : Fin NINODE) : Bool := (s.icache k).lock == some s.cur

/-! ## The rules of the primitives -/

section

variable {s : Fs} {k : Fin NINODE} {E : Stop → Prop}

@[simp] theorem wp_inode {Q : Inode → Fs → Prop} : Wp (inode k) s Q E ↔ Q (s.icache k) s := by
  unfold inode
  simp only [wp_bind, wp_get, wp_pure]

@[simp] theorem wp_setInode {f : Inode → Inode} {Q : Unit → Fs → Prop} :
    Wp (setInode k f) s Q E ↔ Q () (s.setInode k f) := wp_modify

@[simp] theorem wp_releasesleep {Q : Unit → Fs → Prop} :
    Wp (releasesleep k) s Q E ↔ Q () (s.setInode k fun ip => { ip with lock := none }) :=
  wp_modify

@[simp] theorem wp_bread {b : Nat} {Q : Block → Fs → Prop} : Wp (bread b) s Q E ↔ Q (s.blk b) s := by
  unfold bread
  simp only [wp_bind, wp_get, wp_pure]

@[simp] theorem wp_myproc {Q : Proc → Fs → Prop} : Wp myproc s Q E ↔ Q (s.proc s.cur) s := by
  unfold myproc
  simp only [wp_bind, wp_get, wp_pure]

end

end Xv6
