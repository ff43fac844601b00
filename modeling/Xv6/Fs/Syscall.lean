import Xv6.Fs.File

/-!
# The system calls

`sysfile.c`, the file system part of `fork` and `exit` in `proc.c`, and `exec`.

A string argument is `none` when `argstr` fails, and a buffer argument is `none`
when `argptr` fails. `exec` asks the memory system three things, and the model
takes the answers from an argument: whether `setupkvm` succeeds, what `allocuvm`
returns and whether what follows the loading of the program succeeds.
-/

namespace Xv6

open Scan Table

/-! ## Descriptors -/

/-- Fetch a system call argument as a file descriptor and return both the
descriptor and the corresponding file. -/
def argfd (fd : Int) : Kern (Option (Fin NOFILE × Fin NFILE)) := do
  let p ← myproc
  if h : 0 ≤ fd ∧ fd < (NOFILE : Int) then
    let i : Fin NOFILE := ⟨fd.toNat, by omega⟩
    return (p.ofile i).map fun f => (i, f)
  else return none

/-- `curproc->ofile[fd] = f`. -/
def setOfile (fd : Fin NOFILE) (f : Option (Fin NFILE)) : Kern Unit := do
  let s ← get
  set (s.setProc s.cur fun p => { p with ofile := upd p.ofile fd f })

/-- Allocate a file descriptor for the given file. -/
def fdalloc (f : Fin NFILE) : Kern (Option (Fin NOFILE)) := do
  let p ← myproc
  match firstFin fun fd => (p.ofile fd).isNone with
  | some fd => do
    setOfile fd (some f)
    return some fd
  | none => return none

def sysDup (fd : Int) : Kern Int := do
  match ← argfd fd with
  | none => return -1
  | some (_, f) =>
    match ← fdalloc f with
    | none => return -1
    | some fd => do
      filedup f
      return (fd.val : Int)

def sysRead (fd : Int) (n : Option Nat) : Kern Int := do
  match ← argfd fd, n with
  | some (_, f), some n => return (← fileread f n).1
  | _, _ => return -1

def sysWrite (fd : Int) (src : Option (List UInt8)) : Kern Int := do
  match ← argfd fd, src with
  | some (_, f), some src => filewrite f src
  | _, _ => return -1

def sysClose (fd : Int) : Kern Int := do
  match ← argfd fd with
  | none => return -1
  | some (fd, f) => do
    setOfile fd none
    fileclose f
    return 0

def sysFstat (fd : Int) : Kern Int := do
  match ← argfd fd with
  | none => return -1
  | some (_, f) =>
    match ← filestat f with
    | some _ => return 0
    | none => return -1

/-! ## Links -/

/-- Undo the increment of the link count and fail. -/
def linkBad (ip : Fin NINODE) : Kern Int := do
  ilock ip
  setDin ip fun d => { d with nlink := d.nlink - 1 }
  iupdate ip
  iunlockput ip
  endOp
  return -1

/-- Create the path `new` as a link to the same inode as `old`. -/
def sysLink (old new : Option (List UInt8)) : Kern Int := do
  match old, new with
  | some old, some new => do
    beginOp
    match ← namei old with
    | none => do
      endOp
      return -1
    | some ip => do
      ilock ip
      if (← inode ip).din.type = T_DIR then do
        iunlockput ip
        endOp
        return -1
      else do
        setDin ip fun d => { d with nlink := d.nlink + 1 }
        iupdate ip
        iunlock ip
        match ← nameiparent new with
        | none => linkBad ip
        | some (dp, name) => do
          ilock dp
          let r ← if (← inode dp).dev ≠ (← inode ip).dev then pure (-1)
            else dirlink dp name (← inode ip).inum
          if r < 0 then do
            iunlockput dp
            linkBad ip
          else do
            iunlockput dp
            iput ip
            endOp
            return 0
  | _, _ => return -1

/-- The loop of `isdirempty` from offset `off` on. -/
def isdiremptyFrom (dp : Fin NINODE) : Nat → Nat → Kern Bool
  | 0, _ => return true
  | fuel + 1, off => do
    if off < (← inode dp).din.size.toNat then do
      let (r, bs) ← readi dp off DESIZE
      if r ≠ (DESIZE : Int) then panic .isdirempty
      else if (Dirent.ofBytes bs).inum ≠ 0 then return false
      else isdiremptyFrom dp fuel (off + DESIZE)
    else return true

/-- Is the directory `dp` empty except for "." and ".." ? -/
def isdirempty (dp : Fin NINODE) : Kern Bool := do
  isdiremptyFrom dp ((← inode dp).din.size.toNat / DESIZE + 1) (2 * DESIZE)

/-- The name ".". -/
abbrev dot : List UInt8 := [46]

/-- The name "..". -/
abbrev dotdot : List UInt8 := [46, 46]

/-- The end of `sys_unlink` when it fails. -/
def unlinkBad (dp : Fin NINODE) : Kern Int := do
  iunlockput dp
  endOp
  return -1

def sysUnlink (path : Option (List UInt8)) : Kern Int := do
  match path with
  | none => return -1
  | some path => do
    beginOp
    match ← nameiparent path with
    | none => do
      endOp
      return -1
    | some (dp, name) => do
      ilock dp
      if namecmp name dot = true ∨ namecmp name dotdot = true then unlinkBad dp
      else
        match ← dirlookup dp name with
        | none => unlinkBad dp
        | some (ip, off) => do
          ilock ip
          let d := (← inode ip).din
          if d.nlink < 1 then panic .unlinkNlink
          else do
            let full ← if d.type = T_DIR then do pure !(← isdirempty ip) else pure false
            if full then do
              iunlockput ip
              unlinkBad dp
            else do
              let r ← writei dp (List.replicate DESIZE 0) off
              if r ≠ (DESIZE : Int) then panic .unlinkWritei
              else do
                (if d.type = T_DIR then do
                  setDin dp fun d => { d with nlink := d.nlink - 1 }
                  iupdate dp
                else return ())
                iunlockput dp
                setDin ip fun d => { d with nlink := d.nlink - 1 }
                iupdate ip
                iunlockput ip
                endOp
                return 0

/-! ## Creating and opening -/

/-- The "." and ".." entries of a new directory. -/
def createDots (ip dp : Fin NINODE) : Kern Unit := do
  setDin dp fun d => { d with nlink := d.nlink + 1 }
  iupdate dp
  let r ← dirlink ip dot (← inode ip).inum
  if r < 0 then panic .createDots
  else do
    let r ← dirlink ip dotdot (← inode dp).inum
    if r < 0 then panic .createDots

/-- The part of `create` that makes a new inode with the name `name` in `dp`, and
returns it locked. -/
def createNew (dp : Fin NINODE) (name : List UInt8) (type major minor : Int16) :
    Kern (Fin NINODE) := do
  let ip ← ialloc (← inode dp).dev type
  ilock ip
  setDin ip fun d => { d with major := major, minor := minor, nlink := 1 }
  iupdate ip
  (if type = T_DIR then createDots ip dp else return ())
  let r ← dirlink dp name (← inode ip).inum
  if r < 0 then panic .createDirlink
  else do
    iunlockput dp
    return ip

/-- Create the path with a new inode and return it locked. For a file that
exists, `create` returns it. -/
def create (path : List UInt8) (type major minor : Int16) : Kern (Option (Fin NINODE)) := do
  match ← nameiparent path with
  | none => return none
  | some (dp, name) => do
    ilock dp
    match ← dirlookup dp name with
    | some (ip, _) => do
      iunlockput dp
      ilock ip
      if type = T_FILE ∧ (← inode ip).din.type = T_FILE then return some ip
      else do
        iunlockput ip
        return none
    | none => return some (← createNew dp name type major minor)

/-- The inode `sys_open` opens, locked. -/
def openInode (path : List UInt8) (omode : Nat) : Kern (Option (Fin NINODE)) := do
  if omode &&& O_CREATE ≠ 0 then create path T_FILE 0 0
  else
    match ← namei path with
    | none => return none
    | some ip => do
      ilock ip
      if (← inode ip).din.type = T_DIR ∧ omode ≠ O_RDONLY then do
        iunlockput ip
        return none
      else return some ip

def sysOpen (path : Option (List UInt8)) (omode : Nat) : Kern Int := do
  match path with
  | none => return -1
  | some path => do
    beginOp
    match ← openInode path omode with
    | none => do
      endOp
      return -1
    | some ip =>
      match ← filealloc with
      | none => do
        iunlockput ip
        endOp
        return -1
      | some f =>
        match ← fdalloc f with
        | none => do
          fileclose f
          iunlockput ip
          endOp
          return -1
        | some fd => do
          iunlock ip
          endOp
          setFile f fun fl => { fl with
            type := .inode
            ip := ip
            off := 0
            readable := omode &&& O_WRONLY == 0
            writable := omode &&& O_WRONLY != 0 || omode &&& O_RDWR != 0 }
          return (fd.val : Int)

/-- The body that `sys_mkdir` and `sys_mknod` share. -/
def makeNode (path : Option (List UInt8)) (type major minor : Int16) : Kern Int := do
  beginOp
  match ← path.elim (pure none) (create · type major minor) with
  | none => do
    endOp
    return -1
  | some ip => do
    iunlockput ip
    endOp
    return 0

def sysMkdir (path : Option (List UInt8)) : Kern Int := makeNode path T_DIR 0 0

def sysMknod (path : Option (List UInt8)) (major minor : Int16) : Kern Int :=
  makeNode path T_DEV major minor

def sysChdir (path : Option (List UInt8)) : Kern Int := do
  beginOp
  match ← path.elim (pure none) namei with
  | none => do
    endOp
    return -1
  | some ip => do
    ilock ip
    if (← inode ip).din.type ≠ T_DIR then do
      iunlockput ip
      endOp
      return -1
    else do
      iunlock ip
      iput (← myproc).cwd
      endOp
      modify fun s => s.setProc s.cur fun p => { p with cwd := ip }
      return 0

/-! ## Programs -/

/-- The answers of the memory system to one `exec`. -/
structure ExecVm where
  /-- `setupkvm` succeeds. -/
  setupkvm : Bool
  /-- What `allocuvm(pgdir, oldsz, newsz)` returns. -/
  allocuvm : Nat → Nat → Nat
  /-- Allocating the stack and copying the arguments succeeds. -/
  stack : Bool

/-- The little-endian value of `w` bytes of a header. -/
def word (bs : List UInt8) : Nat → Nat → Nat
  | _, 0 => 0
  | off, w + 1 => (bs.getD off 0).toNat + 256 * word bs (off + 1) w

/-- The loop of `loaduvm` from byte `i` on: read a segment page by page. -/
def loaduvm (ip : Fin NINODE) (offset sz : Nat) : Nat → Nat → Kern Bool
  | 0, _ => return true
  | fuel + 1, i => do
    if i < sz then do
      let n := min (sz - i) PGSIZE
      if (← readi ip ((offset + i) % 2 ^ 32) n).1 ≠ (n : Int) then return false
      else loaduvm ip offset sz fuel (i + PGSIZE)
    else return true

/-- The loop of `exec` over the program headers. Returns whether the program
was loaded. -/
def loadSegments (vm : ExecVm) (ip : Fin NINODE) : Nat → Nat → Nat → Kern Bool
  | 0, _, _ => return true
  | phnum + 1, off, sz => do
    let (r, ph) ← readi ip (off % 2 ^ 32) 32
    if r ≠ 32 then return false
    else if word ph 0 4 ≠ ELF_PROG_LOAD then loadSegments vm ip phnum (off + 32) sz
    else
      let (o, vaddr, filesz, memsz) := (word ph 4 4, word ph 8 4, word ph 16 4, word ph 20 4)
      if memsz < filesz then return false
      else if (vaddr + memsz) % 2 ^ 32 < vaddr then return false
      else
        let sz := vm.allocuvm sz (vaddr + memsz)
        if sz = 0 then return false
        else if vaddr % PGSIZE ≠ 0 then return false
        else do
          if ← loaduvm ip o filesz (filesz / PGSIZE + 1) 0 then
            loadSegments vm ip phnum (off + 32) sz
          else return false

def loadProgram (vm : ExecVm) (ip : Fin NINODE) : Kern Bool := do
  let (r, elf) ← readi ip 0 52
  if r ≠ 52 then return false
  else if word elf 0 4 ≠ ELF_MAGIC then return false
  else if vm.setupkvm = false then return false
  else loadSegments vm ip (word elf 44 2) (word elf 28 4) 0

def exec (vm : ExecVm) (path : Option (List UInt8)) : Kern Int := do
  match path with
  | none => return -1
  | some path => do
    beginOp
    match ← namei path with
    | none => do
      endOp
      return -1
    | some ip => do
      ilock ip
      let loaded ← loadProgram vm ip
      iunlockput ip
      endOp
      if loaded ∧ vm.stack then return 0 else return -1

/-! ## Processes -/

/-- The loop of `fork` over the open files of the parent. -/
def forkFiles (child : Fin NPROC) : List (Fin NOFILE) → Kern Unit
  | [] => return ()
  | fd :: fds => do
    match (← myproc).ofile fd with
    | none => forkFiles child fds
    | some f => do
      filedup f
      modify fun s => s.setProc child fun p =>
        { p with ofile := upd p.ofile fd (some f) }
      forkFiles child fds

/-- The file system part of `fork`, with the slot that `allocproc` found. -/
def fork (child : Fin NPROC) : Kern Int := do
  forkFiles child (List.finRange NOFILE)
  let cwd ← idup (← myproc).cwd
  modify fun s => s.setProc child fun p => { p with live := true, cwd := cwd }
  return 0

/-- The loop of `exit` over the open files. -/
def exitFiles : List (Fin NOFILE) → Kern Unit
  | [] => return ()
  | fd :: fds => do
    match (← myproc).ofile fd with
    | none => exitFiles fds
    | some f => do
      fileclose f
      setOfile fd none
      exitFiles fds

/-- The file system part of `exit`. -/
def exit : Kern Int := do
  exitFiles (List.finRange NOFILE)
  beginOp
  iput (← myproc).cwd
  endOp
  modify fun s => s.setProc s.cur fun p => { p with live := false }
  return 0

/-! ## Runs -/

/-- A system call with its arguments. -/
inductive Call where
  | open (path : Option (List UInt8)) (omode : Nat)
  | mkdir (path : Option (List UInt8))
  | mknod (path : Option (List UInt8)) (major minor : Int16)
  | link (old new : Option (List UInt8))
  | unlink (path : Option (List UInt8))
  | chdir (path : Option (List UInt8))
  | close (fd : Int)
  | dup (fd : Int)
  | read (fd : Int) (n : Option Nat)
  | write (fd : Int) (src : Option (List UInt8))
  | fstat (fd : Int)
  | exec (vm : ExecVm) (path : Option (List UInt8))
  | fork (child : Fin NPROC)
  | exit

def Call.run : Call → Kern Int
  | .open path omode => sysOpen path omode
  | .mkdir path => sysMkdir path
  | .mknod path major minor => sysMknod path major minor
  | .link old new => sysLink old new
  | .unlink path => sysUnlink path
  | .chdir path => sysChdir path
  | .close fd => sysClose fd
  | .dup fd => sysDup fd
  | .read fd n => sysRead fd n
  | .write fd src => sysWrite fd src
  | .fstat fd => sysFstat fd
  | .exec vm path => Xv6.exec vm path
  | .fork child => Xv6.fork child
  | .exit => Xv6.exit

structure Event where
  /-- The process that makes the call. -/
  pid : Fin NPROC
  call : Call

/-- The call can be made: the process exists, and `fork` was given a free slot
of the process table. -/
def Fs.Ready (s : Fs) (e : Event) : Prop :=
  (s.proc e.pid).live = true ∧ ∀ child, e.call = .fork child → (s.proc child).live = false

def Fs.exec (s : Fs) (e : Event) : Except Stop (Int × Fs) := e.call.run { s with cur := e.pid }

end Xv6
