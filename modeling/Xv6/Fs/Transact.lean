import Xv6.Fs.Filewrite

/-!
# The transactions of the calls

Each call that writes is a transaction: what it does between `begin_op` and
`end_op`, and what it does after. The calls end their transaction on each path
they return from. Here the code before `end_op` is written as one program, and the
call is shown to be that program in a transaction.
-/

namespace Xv6

open Hoare Table

variable {s : Fs}

/-- A transaction: what a call does between `begin_op` and `end_op`, and after it. -/
def transact {α β : Type} (body : Kern α) (rest : α → Kern β) : Kern β := do
  beginOp
  let a ← body
  endOp
  rest a

/-- `sys_mkdir` and `sys_mknod` between `begin_op` and `end_op`. -/
def makeBody (path : Option (List UInt8)) (type major minor : Int16) : Kern Int := do
  match ← path.elim (pure none) (create · type major minor) with
  | none => return -1
  | some ip => do
    iunlockput ip
    return 0

theorem makeNode_eq (path : Option (List UInt8)) (type major minor : Int16) :
    makeNode path type major minor = transact (makeBody path type major minor) pure := by
  unfold makeNode transact makeBody
  simp only [bind_assoc]
  congr 1
  funext _
  congr 1
  funext r
  cases r with
  | none => simp only [pure_bind]
  | some ip => simp only [bind_assoc, pure_bind]

/-- `sys_open` between `begin_op` and `end_op`: the descriptor, the file and the inode. -/
def openBody (path : List UInt8) (omode : Nat) : Kern (Option (Fin NOFILE × Fin NFILE × Fin NINODE)) := do
  match ← openInode path omode with
  | none => return none
  | some ip =>
    match ← filealloc with
    | none => do
      iunlockput ip
      return none
    | some f =>
      match ← fdalloc f with
      | none => do
        fileclose f
        iunlockput ip
        return none
      | some fd => do
        iunlock ip
        return some (fd, f, ip)

/-- The end of `sys_open`. -/
def openRest (omode : Nat) : Option (Fin NOFILE × Fin NFILE × Fin NINODE) → Kern Int
  | none => return -1
  | some (fd, f, ip) => do
    setFile f fun fl => { fl with
      type := .inode
      ip := ip
      off := 0
      readable := omode &&& O_WRONLY == 0
      writable := omode &&& O_WRONLY != 0 || omode &&& O_RDWR != 0 }
    return (fd.val : Int)

theorem sysOpen_eq (path : List UInt8) (omode : Nat) :
    sysOpen (some path) omode = transact (openBody path omode) (openRest omode) := by
  unfold sysOpen transact openBody
  simp only [bind_assoc]
  congr 1
  funext _
  congr 1
  funext r
  cases r with
  | none => simp only [pure_bind, openRest]
  | some ip =>
    simp only [bind_assoc]
    congr 1
    funext r
    cases r with
    | none => simp only [bind_assoc, pure_bind, openRest]
    | some f =>
      simp only [bind_assoc]
      congr 1
      funext r
      cases r with
      | none => simp only [bind_assoc, pure_bind, openRest]
      | some fd => simp only [bind_assoc, pure_bind, openRest]

/-- `sys_chdir` between `begin_op` and `end_op`. -/
def chdirBody (path : Option (List UInt8)) : Kern (Option (Fin NINODE)) := do
  match ← path.elim (pure none) namei with
  | none => return none
  | some ip => do
    ilock ip
    if (← inode ip).din.type ≠ T_DIR then do
      iunlockput ip
      return none
    else do
      iunlock ip
      iput (← myproc).cwd
      return some ip

/-- The end of `sys_chdir`. -/
def chdirRest : Option (Fin NINODE) → Kern Int
  | none => return -1
  | some ip => do
    modify fun s => s.setProc s.cur fun p => { p with cwd := ip }
    return 0

theorem sysChdir_eq (path : Option (List UInt8)) : sysChdir path = transact (chdirBody path) chdirRest := by
  unfold sysChdir transact chdirBody
  simp only [bind_assoc]
  congr 1
  funext _
  congr 1
  funext r
  cases r with
  | none => simp only [pure_bind, chdirRest]
  | some ip =>
    simp only [bind_assoc]
    congr 1
    funext _
    congr 1
    funext x
    split
    · simp only [bind_assoc, pure_bind, chdirRest]
    · simp only [bind_assoc, pure_bind, chdirRest]

theorem panic_bind {α β : Type} (e : Panic) (f : α → Kern β) : (panic e : Kern α) >>= f = panic e := rfl

theorem ite_bind {α β : Type} (b : Prop) [Decidable b] (m m' : Kern α) (f : α → Kern β) :
    (if b then m else m') >>= f = if b then m >>= f else m' >>= f := by
  split <;> rfl

/-- `linkBad` before `end_op`. -/
def linkBadBody (ip : Fin NINODE) : Kern Int := do
  ilock ip
  setDin ip fun d => { d with nlink := d.nlink - 1 }
  iupdate ip
  iunlockput ip
  return -1

/-- `sys_link` between `begin_op` and `end_op`. -/
def linkBody (old new : List UInt8) : Kern Int := do
  match ← namei old with
  | none => return -1
  | some ip => do
    ilock ip
    if (← inode ip).din.type = T_DIR then do
      iunlockput ip
      return -1
    else do
      setDin ip fun d => { d with nlink := d.nlink + 1 }
      iupdate ip
      iunlock ip
      match ← nameiparent new with
      | none => linkBadBody ip
      | some (dp, name) => do
        ilock dp
        let r ← if (← inode dp).dev ≠ (← inode ip).dev then pure (-1)
          else dirlink dp name (← inode ip).inum
        if r < 0 then do
          iunlockput dp
          linkBadBody ip
        else do
          iunlockput dp
          iput ip
          return 0

theorem sysLink_eq (old new : List UInt8) :
    sysLink (some old) (some new) = transact (linkBody old new) pure := by
  unfold sysLink transact linkBody
  simp only [bind_assoc]
  congr 1
  funext _
  congr 1
  funext r
  cases r with
  | none => simp only [pure_bind]
  | some ip =>
    simp only [bind_assoc, ite_bind, pure_bind]
    congr 1
    funext _
    congr 1
    funext x
    congr 1
    congr 1
    funext _
    congr 1
    funext _
    congr 1
    funext _
    congr 1
    funext r
    cases r with
    | none => simp only [linkBad, linkBadBody, bind_assoc, pure_bind]
    | some y => simp only [linkBad, linkBadBody, bind_assoc, ite_bind, pure_bind]

/-- `unlinkBad` before `end_op`. -/
def unlinkBadBody (dp : Fin NINODE) : Kern Int := do
  iunlockput dp
  return -1

/-- `sys_unlink` between `begin_op` and `end_op`. -/
def unlinkBody (path : List UInt8) : Kern Int := do
  match ← nameiparent path with
  | none => return -1
  | some (dp, name) => do
    ilock dp
    if namecmp name dot = true ∨ namecmp name dotdot = true then unlinkBadBody dp
    else
      match ← dirlookup dp name with
      | none => unlinkBadBody dp
      | some (ip, off) => do
        ilock ip
        let d := (← inode ip).din
        if d.nlink < 1 then panic .unlinkNlink
        else do
          let full ← if d.type = T_DIR then do pure !(← isdirempty ip) else pure false
          if full then do
            iunlockput ip
            unlinkBadBody dp
          else do
            let r ← writei dp (List.replicate DESIZE 0) off
            if r ≠ (DESIZE : Int) then panic .unlinkWritei
            else do
              (if d.type = T_DIR then do
                setDin dp fun d => { d with nlink := d.nlink - 1 }
                iupdate dp
              else return ())
              iunlockput dp
              setDin ip fun d => { d with nlink := d.nlink - 1 }
              iupdate ip
              iunlockput ip
              return 0

theorem sysUnlink_eq (path : List UInt8) : sysUnlink (some path) = transact (unlinkBody path) pure := by
  unfold sysUnlink transact unlinkBody
  simp only [bind_assoc]
  congr 1
  funext _
  congr 1
  funext r
  cases r with
  | none => simp only [pure_bind]
  | some y =>
    simp only [bind_assoc, ite_bind, unlinkBad, unlinkBadBody, pure_bind]
    congr 1
    funext _
    congr 1
    congr 1
    funext r
    cases r with
    | none => simp only [bind_assoc, pure_bind]
    | some z => simp only [bind_assoc, ite_bind, panic_bind, pure_bind]

/-- The state in which `sys_close` of the last descriptor of a file starts its transaction. -/
def Fs.closing (s : Fs) (fd : Fin NOFILE) (f : Fin NFILE) : Fs :=
  (s.setProc s.cur fun p => { p with ofile := upd p.ofile fd none }).setFile f
    fun fl => { fl with ref := 0, type := .none }

theorem fileclose_eq {f : Fin NFILE} (href : (s.ftable f).ref = 1) (hty : (s.ftable f).type = .inode) :
    fileclose f s = (do beginOp; iput (s.ftable f).ip; endOp : Kern Unit)
      (s.setFile f fun fl => { fl with ref := 0, type := .none }) := by
  unfold fileclose
  have hfile : ∀ k : File → Kern Unit, (file f >>= k) s = k (s.ftable f) s := fun _ => rfl
  rw [hfile, if_neg (by omega), if_neg (by omega), hty]
  rfl

theorem sysClose_eq {fd : Fin NOFILE} {f : Fin NFILE} (hfd : (s.proc s.cur).ofile fd = some f)
    (href : (s.ftable f).ref = 1) (hty : (s.ftable f).type = .inode) : sysClose (fd.val : Int) s =
      transact (iput (s.ftable f).ip) (fun _ => pure (0 : Int)) (s.closing fd f) := by
  have harg : argfd (fd.val : Int) s = .ok (some (fd, f), s) := by
    refine eq_of_wp ?_
    unfold argfd
    simp only [wp_bind, wp_myproc]
    rw [dif_pos ⟨by omega, by have := fd.isLt; omega⟩, wp_pure]
    refine ⟨?_, rfl⟩
    have hi : (⟨(fd.val : Int).toNat, by omega⟩ : Fin NOFILE) = fd := Fin.ext (Int.toNat_natCast _)
    rw [hi, hfd]
    rfl
  have hbind : ∀ k : Option (Fin NOFILE × Fin NFILE) → Kern Int,
      (argfd (fd.val : Int) >>= k) s = k (some (fd, f)) s := fun k => by
    change (argfd (fd.val : Int) s >>= fun r => k r.1 r.2) = _
    rw [harg]
    rfl
  unfold sysClose
  rw [hbind]
  calc (do setOfile fd none; fileclose f; return (0 : Int) : Kern Int) s
      = (fileclose f >>= fun _ => (pure 0 : Kern Int))
          (s.setProc s.cur fun p => { p with ofile := upd p.ofile fd none }) := rfl
    _ = ((do beginOp; iput (s.ftable f).ip; endOp : Kern Unit) >>= fun _ => (pure 0 : Kern Int))
          (s.closing fd f) :=
        congrArg (fun r : Except Stop (Unit × Fs) => r >>= fun x => (pure 0 : Kern Int) x.2)
          (fileclose_eq href hty)
    _ = transact (iput (s.ftable f).ip) (fun _ => pure 0) (s.closing fd f) := by
        unfold transact
        simp only [bind_assoc]

end Xv6
