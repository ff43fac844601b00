import Xv6.Fs.Dir
import Xv6.Fs.Content

/-!
# Making a file system image

`mkfs.c`: the program on the host that writes the first image of the disk.

The image is a function from the sector to its contents. `main` first writes
`FSSIZE` sectors of zeros, and every later write is to a sector that was read
before, so the image keeps that length. A read past it comes back short, and
`mkfs` exits. A failed `assert` and an exit with an error are `none`.

`xshort` and `xint` put a number in the byte order of the disk. The getters and
setters of the disk format have that order built in, so they do not show here.
-/

namespace Xv6.Mkfs

open Table Bytes

/-! ## The layout -/

def nbitmap : Nat := FSSIZE / (BSIZE * 8) + 1

def ninodeblocks : Nat := NINODES / IPB + 1

/-- Number of meta blocks: boot, super, log, inodes, free map. -/
def nmeta : Nat := 2 + LOGSIZE + ninodeblocks + nbitmap

def sb : Superblock where
  size := FSSIZE
  nblocks := FSSIZE - nmeta
  ninodes := NINODES
  nlog := LOGSIZE
  logstart := 2
  inodestart := 2 + LOGSIZE
  bmapstart := 2 + LOGSIZE + ninodeblocks

/-- `memmove(buf, &sb, sizeof(sb))` into a zeroed buffer. -/
def sbBlock : Block :=
  [sb.size, sb.nblocks, sb.ninodes, sb.nlog, sb.logstart, sb.inodestart, sb.bmapstart].zipIdx.foldl
    (fun b v => b.setUint v.2 (UInt32.ofNat v.1)) zeroBlock

/-- `readsb` of the kernel: the super block in sector 1. -/
def readsb (img : Nat → Block) : Superblock where
  size := ((img 1).uint 0).toNat
  nblocks := ((img 1).uint 1).toNat
  ninodes := ((img 1).uint 2).toNat
  nlog := ((img 1).uint 3).toNat
  logstart := ((img 1).uint 4).toNat
  inodestart := ((img 1).uint 5).toNat
  bmapstart := ((img 1).uint 6).toNat

/-! ## Sectors and inodes -/

structure Mk where
  img : Nat → Block
  freeinode : Nat
  freeblock : Nat

def wsect (m : Mk) (sec : Nat) (buf : Block) : Mk := { m with img := upd m.img sec buf }

def rsect (m : Mk) (sec : Nat) : Option Block := if sec < FSSIZE then some (m.img sec) else none

def winode (m : Mk) (inum : Nat) (ip : Dinode) : Option Mk := do
  let buf ← rsect m (sb.iblock inum)
  return wsect m (sb.iblock inum) (buf.setDinode (inum % IPB) ip)

def rinode (m : Mk) (inum : Nat) : Option Dinode := do
  let buf ← rsect m (sb.iblock inum)
  return buf.dinode (inum % IPB)

def ialloc (m : Mk) (type : Int16) : Option (Mk × Nat) := do
  let inum := m.freeinode
  let m ← winode { m with freeinode := inum + 1 } inum { Dinode.zero with type := type, nlink := 1 }
  return (m, inum)

/-- The loop of `balloc`: mark the blocks below `used`. -/
def bitmapOf : Nat → Block
  | 0 => zeroBlock
  | used + 1 => (bitmapOf used).setBit used

/-- Write the free map, with the first `used` blocks marked. -/
def balloc (m : Mk) (used : Nat) : Option Mk :=
  if used < BSIZE * 8 then some (wsect m sb.bmapstart (bitmapOf used)) else none

/-! ## Appending to a file -/

/-- Hand out the next block. -/
def Mk.grab (m : Mk) : Mk := { m with freeblock := m.freeblock + 1 }

/-- The address in `din.addrs[i]`, handing out a block if there is none. -/
def takeAddr (m : Mk) (din : Dinode) (i : Nat) : Mk × Dinode :=
  if din.addr i = 0 then (m.grab, din.setAddr i m.freeblock) else (m, din)

/-- The entry `j` of the indirect block `ind`, handing out a block if there is
none. -/
def takeEntry (m : Mk) (ind j : Nat) : Option (Mk × Nat) := do
  let indirect ← rsect m ind
  if (indirect.uint j).toNat = 0 then
    return (wsect m.grab ind (indirect.setUint j (UInt32.ofNat m.freeblock)), m.freeblock)
  else return (m, (indirect.uint j).toNat)

/-- The block of the file block `fbn` of an inode, handing out blocks where there
are none. -/
def takeBlock (m : Mk) (din : Dinode) (fbn : Nat) : Option (Mk × Dinode × Nat) :=
  if fbn < NDIRECT then
    let (m, din) := takeAddr m din fbn
    some (m, din, din.addr fbn)
  else do
    let (m, din) := takeAddr m din NDIRECT
    let (m, x) ← takeEntry m (din.addr NDIRECT) (fbn - NDIRECT)
    return (m, din, x)

/-- The loop of `iappend`: store the bytes `p` at `off`. -/
def appendFrom : Nat → Mk → Dinode → Nat → List UInt8 → Option (Mk × Dinode × Nat)
  | 0, m, din, off, _ => some (m, din, off)
  | fuel + 1, m, din, off, p =>
    if p.length = 0 then some (m, din, off)
    else if off / BSIZE < MAXFILE then do
      let fbn := off / BSIZE
      let (m, din, x) ← takeBlock m din fbn
      let n1 := min p.length ((fbn + 1) * BSIZE - off)
      let buf ← rsect m x
      let m := wsect m x (overlay buf (off - fbn * BSIZE) n1 fun i => p.getD i 0)
      appendFrom fuel m din (off + n1) (p.drop n1)
    else none

def iappend (m : Mk) (inum : Nat) (p : List UInt8) : Option Mk := do
  let din ← rinode m inum
  let (m, din, off) ← appendFrom p.length m din din.size.toNat p
  winode m inum { din with size := UInt32.ofNat off }

/-! ## The program -/

structure HostFile where
  arg : List UInt8
  /-- What each `read` of the file returns, up to its end. -/
  reads : List (List UInt8)
  arg_ne : ∀ c ∈ arg, c ≠ 0
  /-- A `read` into a buffer of `BSIZE` bytes returns some, and at most that many. -/
  read_len : ∀ r ∈ reads, 0 < r.length ∧ r.length ≤ BSIZE

def HostFile.data (f : HostFile) : List UInt8 := f.reads.flatten

/-- The argument without a leading `_`. -/
def HostFile.stripped (f : HostFile) : List UInt8 :=
  if f.arg.head? = some 95 then f.arg.tail else f.arg

/-- The directory entry for `inum` with the given name. -/
def entry (inum : Nat) (name : List UInt8) : List UInt8 := Dirent.bytes ⟨inum, strncpy name⟩

/-- One iteration of the loop over the arguments. -/
def addFile (rootino : Nat) (m : Mk) (f : HostFile) : Option Mk :=
  if slash ∈ f.arg then none
  else do
    let (m, inum) ← ialloc m T_FILE
    let m ← iappend m rootino (entry inum f.stripped)
    f.reads.foldlM (fun m buf => iappend m inum buf) m

/-- The image with the super block written. -/
def blank : Mk where
  img := upd (fun _ => zeroBlock) 1 sbBlock
  freeinode := 1
  freeblock := nmeta

/-- The end of `main`: fix the size of the root and write the free map. -/
def finish (m : Mk) (rootino : Nat) : Option Mk := do
  let din ← rinode m rootino
  let off := (din.size.toNat / BSIZE + 1) * BSIZE
  let m ← winode m rootino { din with size := UInt32.ofNat off }
  balloc m m.freeblock

/-- `main`, with the arguments after the name of the image. -/
def main (files : List HostFile) : Option Mk := do
  let (m, rootino) ← ialloc blank T_DIR
  if rootino = ROOTINO then
    let m ← iappend m rootino (entry rootino [46])
    let m ← iappend m rootino (entry rootino [46, 46])
    let m ← files.foldlM (addFile rootino) m
    finish m rootino
  else none

end Xv6.Mkfs
