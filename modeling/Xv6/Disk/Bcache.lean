import Mathlib
import Xv6.Disk.Layout
import Xv6.Lib.Ring
import Xv6.Lib.Trans

/-!
# The buffer cache

The buffers of `bio.c` with their list, `log_write()` as far as it concerns a
buffer, and the disk of `memide.c`.

The users of the cache are a type `H` of handles: a process has one for each
buffer it is using at a time. A step is what a user does at once, under the
spinlock of the cache or the sleeplock of a buffer:

* `bget` finds or recycles a buffer and counts the user;
* `acquire` gets the buffer's sleeplock, and `bread` reads the block if need be;
* `modify` changes the data, and must be followed by `logWrite` or `bwrite` before
  the buffer is given back;
* `unlock` and `release` are the two halves of `brelse`.

A panic ends the run.
-/

namespace Xv6.Bcache

open Table Ring Trans

variable {H : Type} [DecidableEq H]

/-- `struct buf`. -/
structure Buf (H : Type) where
  /-- `B_VALID`: the buffer has been read from disk. -/
  valid : Bool
  /-- `B_DIRTY`: the buffer needs to be written to disk. -/
  dirty : Bool
  dev : UInt32
  blockno : UInt32
  lock : Option H
  refcnt : Nat
  data : Block

/-- How far a user of a buffer is. -/
inductive Stage where
  /-- Counted by `bget`, waiting for the lock. -/
  | wants
  | held
  /-- `bread` has returned. -/
  | reads
  | changed
  /-- Has released the lock, and is still counted. -/
  | leaves
deriving DecidableEq, Repr

/-- The use of a buffer: the arguments of `bread`, and the buffer it got. -/
structure Use where
  buf : Fin NBUF
  dev : UInt32
  blockno : UInt32
  stage : Stage
deriving DecidableEq

structure Sys (H : Type) where
  buf : Fin NBUF → Buf H
  /-- The `next` pointers of the head and the buffers. -/
  next : Pointers (Fin NBUF)
  prev : Pointers (Fin NBUF)
  disk : UInt32 → Block
  /-- Number of blocks of the disk. -/
  disksize : UInt32
  /-- What each handle is used for. -/
  use : H → Option Use

/-- Create the linked list of buffers. -/
def binit : Pointers (Fin NBUF) × Pointers (Fin NBUF) :=
  (List.finRange NBUF).foldl (fun p b => pushFront p.1 p.2 b) (fun _ => none, fun _ => none)

/-- The cache after `binit()`. -/
def boot (H : Type) (disk : UInt32 → Block) (disksize : UInt32) : Sys H where
  buf := fun _ => ⟨false, false, 0, 0, none, 0, zeroBlock⟩
  next := binit.1
  prev := binit.2
  disk := disk
  disksize := disksize
  use := fun _ => none

def Sys.set (s : Sys H) (b : Fin NBUF) (f : Buf H → Buf H) : Sys H :=
  { s with buf := upd s.buf b (f (s.buf b)) }

/-- The handle `h` is used for `u` now. -/
def Sys.setUse (s : Sys H) (h : H) (u : Option Use) : Sys H := { s with use := upd s.use h u }

/-- The test of the first loop of `bget`. -/
def isBlock (s : Sys H) (dev blockno : UInt32) (b : Fin NBUF) : Bool :=
  decide ((s.buf b).dev = dev ∧ (s.buf b).blockno = blockno)

/-- The test of the second loop: even if no one uses it, a dirty buffer is in use. -/
def isFree (s : Sys H) (b : Fin NBUF) : Bool :=
  decide ((s.buf b).refcnt = 0 ∧ (s.buf b).dirty = false)

/-- Look through the cache for a block; if not found, recycle a buffer. -/
def bget (s : Sys H) (h : H) (dev blockno : UInt32) : Option (Sys H) :=
  match walk s.next (isBlock s dev blockno) (NBUF + 1) (s.next none) with
  | some b =>
    some ((s.set b fun p => { p with refcnt := p.refcnt + 1 }).setUse h
      (some ⟨b, dev, blockno, .wants⟩))
  | none =>
    (walk s.prev (isFree s) (NBUF + 1) (s.prev none)).map fun b =>
      (s.set b fun p => { p with
        dev := dev, blockno := blockno, valid := false, dirty := false, refcnt := 1 }).setUse h
          (some ⟨b, dev, blockno, .wants⟩)

/-- `acquiresleep`, if the lock is free. -/
def acquire (s : Sys H) (h : H) (u : Use) : Option (Sys H) :=
  if (s.buf u.buf).lock = none then
    some ((s.set u.buf fun p => { p with lock := some h }).setUse h (some { u with stage := .held }))
  else none

/-- Sync a buffer with the disk. -/
def iderw (s : Sys H) (b : Fin NBUF) : Option (Sys H) :=
  let p := s.buf b
  if p.valid = true ∧ p.dirty = false then none
  else if p.dev ≠ 1 then none
  else if s.disksize ≤ p.blockno then none
  else if p.dirty then
    some { s.set b fun p => { p with dirty := false, valid := true } with
      disk := upd s.disk p.blockno p.data }
  else some (s.set b fun p => { p with data := s.disk p.blockno, valid := true })

/-- The rest of `bread` once the buffer is locked. -/
def bread (s : Sys H) (h : H) (u : Use) : Option (Sys H) :=
  (if (s.buf u.buf).valid then some s else iderw s u.buf).map fun s =>
    s.setUse h (some { u with stage := .reads })

def modify (s : Sys H) (h : H) (u : Use) (data : Block) : Sys H :=
  (s.set u.buf fun p => { p with data := data }).setUse h (some { u with stage := .changed })

/-- `log_write` pins the buffer in the cache. -/
def logWrite (s : Sys H) (h : H) (u : Use) : Sys H :=
  (s.set u.buf fun p => { p with dirty := true }).setUse h (some { u with stage := .reads })

def bwrite (s : Sys H) (h : H) (u : Use) : Option (Sys H) :=
  (iderw (s.set u.buf fun p => { p with dirty := true }) u.buf).map fun s =>
    s.setUse h (some { u with stage := .reads })

/-- The first half of `brelse`: `releasesleep`. -/
def unlock (s : Sys H) (h : H) (u : Use) : Sys H :=
  (s.set u.buf fun p => { p with lock := none }).setUse h (some { u with stage := .leaves })

/-- Move a buffer to the head of the list. -/
def relink (s : Sys H) (b : Fin NBUF) : Sys H :=
  let p := unlink s.next s.prev b
  let q := pushFront p.1 p.2 b
  { s with next := q.1, prev := q.2 }

/-- The second half of `brelse`. -/
def release (s : Sys H) (h : H) (u : Use) : Sys H :=
  let s := (s.set u.buf fun p => { p with refcnt := p.refcnt - 1 }).setUse h none
  if (s.buf u.buf).refcnt = 0 then relink s u.buf else s

inductive Event where
  | bget (dev blockno : UInt32)
  | acquire
  | bread
  | modify (data : Block)
  | logWrite
  | bwrite
  | unlock
  | release

def step (s : Sys H) : H × Event → Option (Sys H)
  | (h, e) =>
    match e, s.use h with
    | .bget dev blockno, none => bget s h dev blockno
    | _, none => none
    | e, some u =>
      match e, u.stage with
      | .acquire, .wants => acquire s h u
      | .bread, .held => bread s h u
      | .modify data, .reads => some (modify s h u data)
      | .modify data, .changed => some (modify s h u data)
      | .logWrite, .reads => some (logWrite s h u)
      | .logWrite, .changed => some (logWrite s h u)
      | .bwrite, .reads => bwrite s h u
      | .bwrite, .changed => bwrite s h u
      | .unlock, .reads => some (unlock s h u)
      | .release, .leaves => some (release s h u)
      | _, _ => none

/-! ## The plain map -/

/-- What the blocks hold: a map that `log_write` and `bwrite` write to. -/
abbrev Contents : Type := UInt32 → Block

/-- A write of the buffer a handle uses. -/
def note (s : Sys H) (e : H × Event) (_ : Sys H) (m : Contents) : Contents :=
  match e.2, s.use e.1 with
  | .logWrite, some u => upd m u.blockno (s.buf u.buf).data
  | .bwrite, some u => upd m u.blockno (s.buf u.buf).data
  | _, _ => m

end Xv6.Bcache
