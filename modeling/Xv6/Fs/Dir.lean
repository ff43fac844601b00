import Xv6.Fs.Inode

/-!
# Directories and paths

The directory and path layers of `fs.c`.

A C string is the list of its bytes before the NUL. A name handed to the
directory layer sits in an array of `DIRSIZ` bytes, and every function that
reads such an array stops at a NUL or after `DIRSIZ` bytes, so a name is a list
of at most `DIRSIZ` bytes.
-/

namespace Xv6

open Scan Bytes

/-! ## Directory entries -/

/-- The bytes of a string before its NUL. -/
def cstr (s : List UInt8) : List UInt8 := s.takeWhile (· ≠ 0)

structure Dirent where
  /-- The inode, or zero if the entry is free. -/
  inum : Nat
  name : List UInt8
deriving DecidableEq, Repr

/-- `sizeof(struct dirent)`. -/
abbrev DESIZE : Nat := 2 + DIRSIZ

/-- The entry stored in `DESIZE` bytes. -/
def Dirent.ofBytes (bs : List UInt8) : Dirent where
  inum := (bs.getD 0 0).toNat + 256 * (bs.getD 1 0).toNat
  name := (List.range DIRSIZ).map fun i => bs.getD (2 + i) 0

def Dirent.bytes (de : Dirent) : List UInt8 :=
  UInt8.ofNat de.inum :: UInt8.ofNat (de.inum / 256) ::
    (List.range DIRSIZ).map fun i => de.name.getD i 0

/-- `strncpy(de.name, name, DIRSIZ)`: the name, padded with NULs. -/
def strncpy (name : List UInt8) : List UInt8 :=
  (List.range DIRSIZ).map fun i => (cstr (name.take DIRSIZ)).getD i 0

/-- `namecmp(s, t) == 0`. -/
def namecmp (s t : List UInt8) : Bool := cstr (s.take DIRSIZ) == cstr (t.take DIRSIZ)

/-! ## Directories -/

/-- The loop of `dirlookup` from offset `off` on. -/
def dirlookupFrom (dp : Fin NINODE) (name : List UInt8) :
    Nat → Nat → Kern (Option (Fin NINODE × Nat))
  | 0, _ => return none
  | fuel + 1, off => do
    let ip ← inode dp
    if off < ip.din.size.toNat then do
      let (r, bs) ← readi dp off DESIZE
      if r ≠ (DESIZE : Int) then panic .dirlookupRead
      else
        let de := Dirent.ofBytes bs
        if de.inum ≠ 0 ∧ namecmp name de.name = true then do
          let k ← iget ip.dev de.inum
          return some (k, off)
        else dirlookupFrom dp name fuel (off + DESIZE)
    else return none

/-- Look for a directory entry in a directory. If found, return its inode and
its byte offset. -/
def dirlookup (dp : Fin NINODE) (name : List UInt8) : Kern (Option (Fin NINODE × Nat)) := do
  let d := (← inode dp).din
  if d.type ≠ T_DIR then panic .notDir
  else dirlookupFrom dp name (d.size.toNat / DESIZE + 1) 0

/-- The loop of `dirlink`: the offset of the first free entry from `off` on, or
of the end. -/
def dirlinkScan (dp : Fin NINODE) : Nat → Nat → Kern Nat
  | 0, off => return off
  | fuel + 1, off => do
    let ip ← inode dp
    if off < ip.din.size.toNat then do
      let (r, bs) ← readi dp off DESIZE
      if r ≠ (DESIZE : Int) then panic .dirlinkRead
      else if (Dirent.ofBytes bs).inum = 0 then return off
      else dirlinkScan dp fuel (off + DESIZE)
    else return off

/-- Write a new directory entry (`name`, `inum`) into the directory `dp`. -/
def dirlink (dp : Fin NINODE) (name : List UInt8) (inum : Nat) : Kern Int := do
  match ← dirlookup dp name with
  | some (k, _) => do
    iput k
    return -1
  | none => do
    let size := (← inode dp).din.size.toNat
    let off ← dirlinkScan dp (size / DESIZE + 1) 0
    let r ← writei dp (Dirent.bytes ⟨inum, strncpy name⟩) off
    if r ≠ (DESIZE : Int) then panic .dirlink
    else return 0

/-! ## Paths -/

/-- The character that separates path elements. -/
abbrev slash : UInt8 := 47

/-- Copy the next path element from `path` into `name`. Return what follows it,
without leading slashes, and the name. -/
def skipelem (path : List UInt8) : Option (List UInt8 × List UInt8) :=
  match path.dropWhile (· = slash) with
  | [] => none
  | c :: p =>
    some (((c :: p).dropWhile (· ≠ slash)).dropWhile (· = slash),
      ((c :: p).takeWhile (· ≠ slash)).take DIRSIZ)

/-- The loop of `namex` from the inode `k` on. `name` is the last element
copied out of the path. -/
def namexFrom (nameiparent : Bool) :
    Nat → Fin NINODE → List UInt8 → List UInt8 → Kern (Option (Fin NINODE × List UInt8))
  | 0, _, _, _ => return none
  | fuel + 1, k, path, name =>
    match skipelem path with
    | none => do
      if nameiparent then do
        iput k
        return none
      else return some (k, name)
    | some (path, name) => do
      ilock k
      if (← inode k).din.type ≠ T_DIR then do
        iunlockput k
        return none
      else if nameiparent ∧ path = [] then do
        iunlock k
        return some (k, name)
      else
        match ← dirlookup k name with
        | none => do
          iunlockput k
          return none
        | some (next, _) => do
          iunlockput k
          namexFrom nameiparent fuel next path name

/-- Look up and return the inode for a path name. If `nameiparent`, return the
inode for the parent and the final path element. -/
def namex (path : List UInt8) (nameiparent : Bool) : Kern (Option (Fin NINODE × List UInt8)) := do
  let k ← if path.head? = some slash then iget ROOTDEV ROOTINO else do idup (← myproc).cwd
  namexFrom nameiparent (path.length + 1) k path []

def namei (path : List UInt8) : Kern (Option (Fin NINODE)) := do
  return (← namex path false).map Prod.fst

/-- The inode of the parent of a path, and the final element. -/
def nameiparent (path : List UInt8) : Kern (Option (Fin NINODE × List UInt8)) := namex path true

end Xv6
