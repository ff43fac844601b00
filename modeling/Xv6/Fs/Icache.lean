import Mathlib
import Xv6.Disk.Extent
import Xv6.Lib.Scan
import Xv6.Lib.Trans

/-!
# The inode cache between processes

The inode cache of `fs.c` as many processes use it at once.

The users of the cache are a type `H` of handles, one for each pointer to an inode
that a process holds a reference through. A step is what a user does at once,
under the spinlock of the cache or with the inode locked:

* `iget` and `idup` count a new reference;
* `acquire` and `load` are the two halves of `ilock`;
* under the lock, `assign` is the assignment to `major`, `minor` and `nlink` in
  `create`, `link` and `unlink`, and `readi` and `writei` are what these functions do
  to the inode;
* `iput` is its lock, its test, the steps that free the inode, its unlock, and the
  drop of the reference.

A call of `iupdate` is a step of its own, so another process may run between a
change in memory and the write to disk. `ialloc` is the write to disk it does; the
`iget` at its end is another step.

`disk dev b` is what `bread(dev, b)` returns, the logged contents. Of a data block
`bmap` hands out only its number is seen here; it comes with the event. A panic
ends the run.
-/

namespace Xv6.Icache

open Table Scan

variable {H : Type} [DecidableEq H]

/-- `struct inode`. -/
structure Entry (H : Type) where
  dev : Nat
  inum : Nat
  ref : Nat
  lock : Option H
  /-- Inode has been read from disk? -/
  valid : Bool
  din : Dinode

/-- How far the user of an inode is. -/
inductive Stage where
  /-- Has a reference. -/
  | counted
  /-- In `ilock`, with the lock. -/
  | acquired
  /-- `ilock` has returned. -/
  | locked
  /-- Has changed the inode; `iupdate` is next. -/
  | changed
  | putting
  /-- In `iput`, which will free the inode. -/
  | freeing
  /-- In `itrunc`, before its `iupdate`. -/
  | truncated
  /-- After `itrunc`. -/
  | trimmed
  /-- The type is zero; `iupdate` is next. -/
  | cleared
  /-- The inode is free on disk. -/
  | freed
  /-- In `iput`, about to unlock. -/
  | leaving
  /-- In `iput`, unlocked and still counted. -/
  | dropping
deriving DecidableEq, Repr

structure Use where
  ent : Fin NINODE
  stage : Stage
deriving DecidableEq

structure Sys (H : Type) where
  sb : Superblock
  ent : Fin NINODE → Entry H
  /-- The blocks of each device. -/
  disk : Nat → Nat → Block
  /-- What each handle is used for. -/
  use : H → Option Use

def boot (H : Type) (sb : Superblock) (disk : Nat → Nat → Block) : Sys H where
  sb := sb
  ent := fun _ => ⟨0, 0, 0, none, false, Dinode.zero⟩
  disk := disk
  use := fun _ => none

/-- The device and the number of an inode. -/
abbrev Key : Type := Nat × Nat

def Sys.dinode (s : Sys H) (k : Key) : Dinode := (s.disk k.1 (s.sb.iblock k.2)).dinode (k.2 % IPB)

/-- The inode an entry stands for. -/
def Entry.key (p : Entry H) : Key := (p.dev, p.inum)

def Sys.set (s : Sys H) (b : Fin NINODE) (f : Entry H → Entry H) : Sys H :=
  { s with ent := upd s.ent b (f (s.ent b)) }

/-- The handle `h` is used for `u` now. -/
def Sys.setUse (s : Sys H) (h : H) (u : Option Use) : Sys H := { s with use := upd s.use h u }

def Sys.store (s : Sys H) (k : Key) (d : Dinode) : Sys H :=
  { s with disk := upd s.disk k.1 (upd (s.disk k.1) (s.sb.iblock k.2)
      ((s.disk k.1 (s.sb.iblock k.2)).setDinode (k.2 % IPB) d)) }

/-! ## References -/

/-- Find the inode in the cache, or recycle an entry. -/
def iget (s : Sys H) (h : H) (dev inum : Nat) : Option (Sys H) :=
  match firstFin fun b => decide (0 < (s.ent b).ref ∧ (s.ent b).dev = dev ∧ (s.ent b).inum = inum) with
  | some b => some ((s.set b fun p => { p with ref := p.ref + 1 }).setUse h (some ⟨b, .counted⟩))
  | none =>
    (firstFin fun b => decide ((s.ent b).ref = 0)).map fun b =>
      (s.set b fun p => { p with dev := dev, inum := inum, ref := 1, valid := false }).setUse h
        (some ⟨b, .counted⟩)

def idup (s : Sys H) (u : Use) (dst : H) : Option (Sys H) :=
  if s.use dst = none then
    some ((s.set u.ent fun p => { p with ref := p.ref + 1 }).setUse dst (some ⟨u.ent, .counted⟩))
  else none

/-- Allocate an inode by giving it a type. -/
def ialloc (s : Sys H) (dev : Nat) (type : Int16) : Option (Sys H) :=
  (firstFrom (fun inum => decide ((s.dinode (dev, inum)).type = 0)) 1 (s.sb.ninodes - 1)).map
    fun inum => s.store (dev, inum) { Dinode.zero with type := type }

/-! ## The lock -/

/-- `acquiresleep`, if the lock is free. -/
def acquire (s : Sys H) (h : H) (u : Use) (g : Stage) : Option (Sys H) :=
  if (s.ent u.ent).lock = none then
    some ((s.set u.ent fun p => { p with lock := some h }).setUse h (some { u with stage := g }))
  else none

/-- The rest of `ilock` once the lock is held. -/
def load (s : Sys H) (h : H) (u : Use) : Option (Sys H) :=
  let p := s.ent u.ent
  if p.valid then some (s.setUse h (some { u with stage := .locked }))
  else if (s.dinode p.key).type = 0 then none
  else some ((s.set u.ent fun p => { p with din := s.dinode p.key, valid := true }).setUse h
    (some { u with stage := .locked }))

/-- `releasesleep`. -/
def unlock (s : Sys H) (h : H) (u : Use) (g : Stage) : Sys H :=
  (s.set u.ent fun p => { p with lock := none }).setUse h (some { u with stage := g })

/-! ## Changing an inode -/

/-- Change the copy of the disk inode. -/
def setDin (s : Sys H) (h : H) (u : Use) (g : Stage) (d : Dinode) : Sys H :=
  (s.set u.ent fun p => { p with din := d }).setUse h (some { u with stage := g })

/-- Copy a modified in-memory inode to disk. -/
def iupdate (s : Sys H) (h : H) (u : Use) (g : Stage) : Sys H :=
  (s.store (s.ent u.ent).key (s.ent u.ent).din).setUse h (some { u with stage := g })

/-- The entry of `addrs` that `bmap` looks at for block `bn`. -/
def slot (bn : Nat) : Nat := if bn < NDIRECT then bn else NDIRECT

/-- What `bmap` of one block does to the inode: an address that is zero becomes the
block that `balloc` returns. -/
def mapAddr (blocks : Nat → Nat) (d : Dinode) (bn : Nat) : Dinode :=
  if d.addr (slot bn) = 0 then d.setAddr (slot bn) (blocks (slot bn)) else d

/-- The blocks that hold the bytes from `off` to `off + n`. -/
def blocksOf (off n : Nat) : List Nat :=
  if n = 0 then [] else List.range' (off / BSIZE) ((off + n - 1) / BSIZE - off / BSIZE + 1)

/-- The loop of `readi` and `writei`, as far as it concerns the inode. -/
def mapAddrs (blocks : Nat → Nat) (d : Dinode) (off n : Nat) : Dinode :=
  (blocksOf off n).foldl (mapAddr blocks) d

/-- The number of bytes that `readi` reads. -/
def readLen (d : Dinode) (off n : Nat) : Nat :=
  if d.type = T_DEV then 0
  else if d.size.toNat < off ∨ (off + n) % 2 ^ 32 < off then 0
  else if d.size.toNat < off + n then d.size.toNat - off else n

/-- The number of bytes that `writei` writes. -/
def writeLen (d : Dinode) (off n : Nat) : Nat :=
  if d.type = T_DEV then 0
  else if d.size.toNat < off ∨ (off + n) % 2 ^ 32 < off then 0
  else if MAXFILE * BSIZE < off + n then 0 else n

/-- Read data from the inode. There is no `iupdate`. -/
def readi (s : Sys H) (h : H) (u : Use) (off n : Nat) (blocks : Nat → Nat) : Sys H :=
  let d := (s.ent u.ent).din
  setDin s h u .locked (mapAddrs blocks d off (readLen d off n))

/-- Write data to the inode. There is an `iupdate` if the size grows. -/
def writei (s : Sys H) (h : H) (u : Use) (off n : Nat) (blocks : Nat → Nat) : Sys H :=
  let d := (s.ent u.ent).din
  let len := writeLen d off n
  let d' := mapAddrs blocks d off len
  if 0 < len ∧ d.size.toNat < off + len then
    setDin s h u .changed { d' with size := UInt32.ofNat (off + len) }
  else setDin s h u .locked d'

/-! ## Dropping a reference -/

/-- The test of `iput`. -/
def iputCheck (s : Sys H) (h : H) (u : Use) : Sys H :=
  let p := s.ent u.ent
  s.setUse h (some { u with
    stage := if p.valid = true ∧ p.din.nlink = 0 ∧ p.ref = 1 then .freeing else .leaving })

/-- The loops of `itrunc`: no block and no size is left. -/
def itrunc (s : Sys H) (h : H) (u : Use) : Sys H :=
  setDin s h u .truncated
    { (s.ent u.ent).din with addrs := Vector.replicate (NDIRECT + 1) 0, size := 0 }

/-- `ip->valid = 0`. -/
def invalidate (s : Sys H) (h : H) (u : Use) : Sys H :=
  (s.set u.ent fun p => { p with valid := false }).setUse h (some { u with stage := .leaving })

/-- `ip->ref--`. -/
def drop (s : Sys H) (h : H) (u : Use) : Sys H :=
  (s.set u.ent fun p => { p with ref := p.ref - 1 }).setUse h none

/-! ## Steps -/

inductive Event (H : Type) where
  | iget (dev inum : Nat)
  | idup (dst : H)
  | ialloc (dev : Nat) (type : Int16)
  | acquire
  | load
  | assign (major minor nlink : Int16)
  | readi (off n : Nat) (blocks : Nat → Nat)
  | writei (off n : Nat) (blocks : Nat → Nat)
  | iupdate
  | iunlock
  | iputAcquire
  | iputCheck
  | itrunc
  | clearType
  | invalidate
  | iputRelease
  | drop

/-- A step of the user `u` behind the handle `h`. -/
def useStep (s : Sys H) (h : H) (u : Use) (e : Event H) : Option (Sys H) :=
  let d := (s.ent u.ent).din
  match u.stage with
  | .counted =>
    match e with
    | .acquire => acquire s h u .acquired
    | .iputAcquire => acquire s h u .putting
    | _ => none
  | .acquired =>
    match e with
    | .load => load s h u
    | _ => none
  | .locked =>
    match e with
    | .assign major minor nlink =>
      some (setDin s h u .changed { d with major := major, minor := minor, nlink := nlink })
    | .readi off n blocks => some (readi s h u off n blocks)
    | .writei off n blocks => some (writei s h u off n blocks)
    | .iunlock => some (unlock s h u .counted)
    | _ => none
  | .changed =>
    match e with
    | .iupdate => some (iupdate s h u .locked)
    | _ => none
  | .putting =>
    match e with
    | .iputCheck => some (iputCheck s h u)
    | _ => none
  | .freeing =>
    match e with
    | .itrunc => some (itrunc s h u)
    | _ => none
  | .truncated =>
    match e with
    | .iupdate => some (iupdate s h u .trimmed)
    | _ => none
  | .trimmed =>
    match e with
    | .clearType => some (setDin s h u .cleared { d with type := 0 })
    | _ => none
  | .cleared =>
    match e with
    | .iupdate => some (iupdate s h u .freed)
    | _ => none
  | .freed =>
    match e with
    | .invalidate => some (invalidate s h u)
    | _ => none
  | .leaving =>
    match e with
    | .iputRelease => some (unlock s h u .dropping)
    | _ => none
  | .dropping =>
    match e with
    | .drop => some (drop s h u)
    | _ => none

def step (s : Sys H) : H × Event H → Option (Sys H)
  | (_, .ialloc dev type) => ialloc s dev type
  | (h, .iget dev inum) => if s.use h = none then iget s h dev inum else none
  | (h, .idup dst) => (s.use h).bind fun u => idup s u dst
  | (h, e) => (s.use h).bind fun u => useStep s h u e

/-! ## The table of inodes -/

/-- The inodes as their users left them. -/
abbrev Inodes : Type := Key → Dinode

/-- A step that assigns to an inode, in memory or by `ialloc` on disk, assigns to the
table. -/
def note (s : Sys H) (e : H × Event H) (t : Sys H) (A : Inodes) : Inodes :=
  match e with
  | (_, .ialloc dev _) =>
    match firstFrom (fun inum => decide ((s.dinode (dev, inum)).type = 0)) 1 (s.sb.ninodes - 1) with
    | some inum => upd A (dev, inum) (t.dinode (dev, inum))
    | none => A
  | (h, .assign ..) | (h, .readi ..) | (h, .writei ..) | (h, .itrunc) | (h, .clearType) =>
    match s.use h with
    | some u => upd A (s.ent u.ent).key (t.ent u.ent).din
    | none => A
  | _ => A

end Xv6.Icache
