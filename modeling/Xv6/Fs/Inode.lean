import Xv6.Fs.State

/-!
# Blocks and inodes

The block allocator and the inode layer of `fs.c`, function by function.

A loop of the source is a recursion on the number of iterations left, and what
it computes before it writes is a pure function of the state. Offsets and
lengths are 32-bit in the source; where a sum of two of them may wrap, the model
reduces it modulo `2 ^ 32`.
-/

namespace Xv6

open Hoare Scan Bytes

/-! ## Blocks -/

def bzero (bno : Nat) : Kern Unit := bput bno zeroBlock

/-- The loops of `balloc` from block `b` on: the first block whose bit is clear,
as `b` and its distance from `b`. -/
def Fs.freeBit (s : Fs) : Nat → Nat → Option (Nat × Nat)
  | 0, _ => none
  | fuel + 1, b =>
    if b < s.sb.size then
      match firstFrom (fun bi => !(s.blk (s.sb.bblock b)).bit bi) 0 (min BPB (s.sb.size - b)) with
      | some bi => some (b, bi)
      | none => s.freeBit fuel (b + BPB)
    else none

/-- Allocate a zeroed disk block. -/
def balloc : Kern Nat := do
  let s ← get
  match s.freeBit (s.sb.size / BPB + 1) 0 with
  | some (b, bi) =>
    bput (s.sb.bblock b) ((s.blk (s.sb.bblock b)).setBit bi)
    bzero (b + bi)
    return b + bi
  | none => panic .outOfBlocks

def bfree (b : Nat) : Kern Unit := do
  let s ← get
  let bm := s.blk (s.sb.bblock b)
  if bm.bit (b % BPB) then bput (s.sb.bblock b) (bm.clearBit (b % BPB))
  else panic .freeBlock

/-! ## The inode cache -/

/-- The inode `inum` on disk. -/
def Fs.dinode (s : Fs) (inum : Nat) : Dinode := (s.blk (s.sb.iblock inum)).dinode (inum % IPB)

/-- Find the inode with number `inum` on device `dev` and return the in-memory
copy. Does not lock the inode and does not read it from disk. -/
def iget (dev inum : Nat) : Kern (Fin NINODE) := do
  let s ← get
  match firstFin fun k => decide (0 < (s.icache k).ref ∧ (s.icache k).dev = dev ∧
      (s.icache k).inum = inum) with
  | some k =>
    setInode k fun ip => { ip with ref := ip.ref + 1 }
    return k
  | none =>
    match firstFin fun k => decide ((s.icache k).ref = 0) with
    | some k =>
      setInode k fun ip => { ip with dev := dev, inum := inum, ref := 1, valid := false }
      return k
    | none => panic .igetNoInodes

/-- Allocate an inode on device `dev` by giving it the type `type`. -/
def ialloc (dev : Nat) (type : Int16) : Kern (Fin NINODE) := do
  let s ← get
  match firstFrom (fun inum => decide ((s.dinode inum).type = 0)) 1 (s.sb.ninodes - 1) with
  | some inum =>
    bput (s.sb.iblock inum)
      ((s.blk (s.sb.iblock inum)).setDinode (inum % IPB) { Dinode.zero with type := type })
    iget dev inum
  | none => panic .iallocNoInodes

/-- Copy a modified in-memory inode to disk. -/
def iupdate (k : Fin NINODE) : Kern Unit := do
  let s ← get
  let ip := s.icache k
  bput (s.sb.iblock ip.inum)
    ((s.blk (s.sb.iblock ip.inum)).setDinode (ip.inum % IPB) ip.din)

/-- Increment the reference count of `ip`. -/
def idup (k : Fin NINODE) : Kern (Fin NINODE) := do
  setInode k fun ip => { ip with ref := ip.ref + 1 }
  return k

/-- Lock the given inode. Reads the inode from disk if necessary. -/
def ilock (k : Fin NINODE) : Kern Unit := do
  if (← inode k).ref < 1 then panic .ilock
  else do
    acquiresleep k
    if (← inode k).valid then return ()
    else do
      let s ← get
      let d := s.dinode (s.icache k).inum
      setInode k fun ip => { ip with din := d, valid := true }
      if d.type = 0 then panic .noType

def iunlock (k : Fin NINODE) : Kern Unit := do
  let s ← get
  if s.holdingsleep k = false ∨ (s.icache k).ref < 1 then panic .iunlock
  else releasesleep k

/-! ## Inode content -/

/-- Assign to fields of the copy of the disk inode. -/
def setDin (k : Fin NINODE) (f : Dinode → Dinode) : Kern Unit :=
  setInode k fun ip => { ip with din := f ip.din }

@[simp] theorem wp_setDin {s : Fs} {k : Fin NINODE} {f : Dinode → Dinode} {Q : Unit → Fs → Prop}
    {E : Stop → Prop} :
    Wp (setDin k f) s Q E ↔ Q () (s.setInode k fun ip => { ip with din := f ip.din }) := wp_modify

/-- The address in `ip->addrs[i]`, allocating a block if there is none. -/
def bmapAddr (k : Fin NINODE) (i : Nat) : Kern Nat := do
  let addr := (← inode k).din.addr i
  if addr = 0 then do
    let addr ← balloc
    setDin k (·.setAddr i addr)
    return addr
  else return addr

/-- The entry `j` of the indirect block at `ind`, allocating a block if there is
none. -/
def bmapEntry (ind j : Nat) : Kern Nat := do
  let addr := ((← bread ind).uint j).toNat
  if addr = 0 then do
    let addr ← balloc
    bput ind ((← bread ind).setUint j (UInt32.ofNat addr))
    return addr
  else return addr

/-- Return the disk block address of the nth block in inode `ip`. If there is
no such block, `bmap` allocates one. -/
def bmap (k : Fin NINODE) (bn : Nat) : Kern Nat := do
  if bn < NDIRECT then bmapAddr k bn
  else if bn - NDIRECT < NINDIRECT then do
    let ind ← bmapAddr k NDIRECT
    bmapEntry ind (bn - NDIRECT)
  else panic .bmapRange

/-- The first loop of `itrunc`: free the direct blocks from `i` on. -/
def itruncDirect (k : Fin NINODE) : Nat → Nat → Kern Unit
  | 0, _ => return ()
  | n + 1, i => do
    let addr := (← inode k).din.addr i
    (if addr ≠ 0 then do
      bfree addr
      setDin k (·.setAddr i 0)
    else return ())
    itruncDirect k n (i + 1)

/-- The second loop of `itrunc`: free the blocks an indirect block lists. -/
def itruncIndirect (a : Block) : Nat → Nat → Kern Unit
  | 0, _ => return ()
  | n + 1, j => do
    (if (a.uint j).toNat ≠ 0 then bfree (a.uint j).toNat else return ())
    itruncIndirect a n (j + 1)

/-- Truncate inode (discard contents). -/
def itrunc (k : Fin NINODE) : Kern Unit := do
  itruncDirect k NDIRECT 0
  let ind := (← inode k).din.addr NDIRECT
  (if ind ≠ 0 then do
    itruncIndirect (← bread ind) NINDIRECT 0
    bfree ind
    setDin k (·.setAddr NDIRECT 0)
  else return ())
  setDin k fun d => { d with size := 0 }
  iupdate k

/-- Drop a reference to an in-memory inode. If that was the last reference and
the inode has no links to it, free the inode (and its content) on disk. -/
def iput (k : Fin NINODE) : Kern Unit := do
  acquiresleep k
  let ip ← inode k
  (if ip.valid = true ∧ ip.din.nlink = 0 then do
    let r := (← inode k).ref
    if r = 1 then do
      itrunc k
      setDin k fun d => { d with type := 0 }
      iupdate k
      setInode k fun ip => { ip with valid := false }
    else return ()
  else return ())
  releasesleep k
  setInode k fun ip => { ip with ref := ip.ref - 1 }

/-- Common idiom: unlock, then put. -/
def iunlockput (k : Fin NINODE) : Kern Unit := do
  iunlock k
  iput k

/-! ## Reading and writing -/

/-- `consoleread`: it gives up the inode lock while it waits. -/
def consoleread (k : Fin NINODE) (n : Nat) : Kern (Int × List UInt8) := do
  iunlock k
  let line := (← get).input 0
  modify fun s => { s with input := fun i => s.input (i + 1) }
  ilock k
  match line with
  | some bs => return (((bs.take n).length : Int), bs.take n)
  | none => return (-1, [])

/-- `consolewrite`: it gives up the inode lock while it writes. -/
def consolewrite (k : Fin NINODE) (n : Nat) : Kern Int := do
  iunlock k
  ilock k
  return n

/-- Whether `devsw[major]` has functions. Only the console has. -/
def hasDev (major : Int16) : Bool := major.toInt == (CONSOLE : Int)

/-- The loop of `readi`: the bytes at `off` for the `n` that are left. -/
def readBlocks (k : Fin NINODE) : Nat → Nat → Nat → Kern (List UInt8)
  | 0, _, _ => return []
  | fuel + 1, off, n => do
    if n = 0 then return []
    else
      let b ← bread (← bmap k (off / BSIZE))
      let m := min n (BSIZE - off % BSIZE)
      let rest ← readBlocks k fuel (off + m) (n - m)
      return (List.range m).map (fun i => byte b (off % BSIZE + i)) ++ rest

def readi (k : Fin NINODE) (off n : Nat) : Kern (Int × List UInt8) := do
  let d := (← inode k).din
  if d.type = T_DEV then
    if d.major < 0 ∨ (NDEV : Int) ≤ d.major.toInt ∨ hasDev d.major = false then return (-1, [])
    else consoleread k n
  else if d.size.toNat < off ∨ (off + n) % 2 ^ 32 < off then return (-1, [])
  else
    let n := if d.size.toNat < off + n then d.size.toNat - off else n
    let bs ← readBlocks k n off n
    return ((n : Int), bs)

/-- The loop of `writei`: store the bytes `src` at `off`. -/
def writeBlocks (k : Fin NINODE) : Nat → Nat → List UInt8 → Kern Unit
  | 0, _, _ => return ()
  | fuel + 1, off, src => do
    if src.length = 0 then return ()
    else
      let addr ← bmap k (off / BSIZE)
      let m := min src.length (BSIZE - off % BSIZE)
      bput addr (overlay (← bread addr) (off % BSIZE) m fun i => src.getD i 0)
      writeBlocks k fuel (off + m) (src.drop m)

def writei (k : Fin NINODE) (src : List UInt8) (off : Nat) : Kern Int := do
  let d := (← inode k).din
  let n := src.length
  if d.type = T_DEV then
    if d.major < 0 ∨ (NDEV : Int) ≤ d.major.toInt ∨ hasDev d.major = false then return -1
    else consolewrite k n
  else if d.size.toNat < off ∨ (off + n) % 2 ^ 32 < off then return -1
  else if MAXFILE * BSIZE < off + n then return -1
  else
    writeBlocks k n off src
    (if 0 < n ∧ (← inode k).din.size.toNat < off + n then do
      setDin k fun d => { d with size := UInt32.ofNat (off + n) }
      iupdate k
    else return ())
    return n

structure Stat where
  dev : Nat
  ino : Nat
  type : Int16
  nlink : Int16
  size : Nat
deriving DecidableEq, Repr

def stati (k : Fin NINODE) : Kern Stat := do
  let ip ← inode k
  return ⟨ip.dev, ip.inum, ip.din.type, ip.din.nlink, ip.din.size.toNat⟩

end Xv6
