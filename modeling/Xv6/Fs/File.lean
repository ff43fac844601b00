import Xv6.Fs.Dir

/-!
# Open files

The file layer, `file.c`. Pipes are outside the model: a read of a pipe returns
what `input` delivers, a write to one succeeds or fails with it, and closing one
changes nothing here.
-/

namespace Xv6

open Scan

def setFile (f : Fin NFILE) (g : File → File) : Kern Unit := modify fun s => s.setFile f g

def file (f : Fin NFILE) : Kern File := return (← get).ftable f

/-- What the outside delivers next. -/
def nextInput : Kern (Option (List UInt8)) := do
  let line := (← get).input 0
  modify fun s => { s with input := fun i => s.input (i + 1) }
  return line

def filealloc : Kern (Option (Fin NFILE)) := do
  let s ← get
  match firstFin fun f => decide ((s.ftable f).ref = 0) with
  | some f => do
    setFile f fun fl => { fl with ref := 1 }
    return some f
  | none => return none

def filedup (f : Fin NFILE) : Kern Unit := do
  if (← file f).ref < 1 then panic .filedup
  else setFile f fun fl => { fl with ref := fl.ref + 1 }

/-- Close file `f`. (Decrement ref count, close when reaches 0.) -/
def fileclose (f : Fin NFILE) : Kern Unit := do
  let ff ← file f
  if ff.ref < 1 then panic .fileclose
  else if 0 < ff.ref - 1 then setFile f fun fl => { fl with ref := fl.ref - 1 }
  else do
    setFile f fun fl => { fl with ref := 0, type := .none }
    match ff.type with
    | .inode => do
      beginOp
      iput ff.ip
      endOp
    | .pipe => return ()
    | .none => return ()

def filestat (f : Fin NFILE) : Kern (Option Stat) := do
  let ff ← file f
  match ff.type with
  | .inode => do
    ilock ff.ip
    let st ← stati ff.ip
    iunlock ff.ip
    return some st
  | .pipe => return none
  | .none => return none

def fileread (f : Fin NFILE) (n : Nat) : Kern (Int × List UInt8) := do
  let ff ← file f
  if ff.readable = false then return (-1, [])
  else
    match ff.type with
    | .pipe => do
      match ← nextInput with
      | some bs => return (((bs.take n).length : Int), bs.take n)
      | none => return (-1, [])
    | .inode => do
      ilock ff.ip
      let (r, bs) ← readi ff.ip ff.off n
      (if 0 < r then setFile f fun fl => { fl with off := (fl.off + r.toNat) % 2 ^ 32 }
      else return ())
      iunlock ff.ip
      return (r, bs)
    | .none => panic .fileread

/-- The most bytes `filewrite` writes in one transaction. -/
abbrev filewriteMax : Nat := (MAXOPBLOCKS - 1 - 1 - 2) / 2 * 512

/-- The loop of `filewrite`: write `src` piece by piece. Returns whether all of
it was written. -/
def filewriteFrom (f : Fin NFILE) : Nat → List UInt8 → Kern Bool
  | 0, _ => return true
  | fuel + 1, src => do
    if src.length = 0 then return true
    else
      let n1 := min src.length filewriteMax
      beginOp
      let ff ← file f
      ilock ff.ip
      let r ← writei ff.ip (src.take n1) ff.off
      (if 0 < r then setFile f fun fl => { fl with off := (fl.off + r.toNat) % 2 ^ 32 }
      else return ())
      iunlock ff.ip
      endOp
      if r < 0 then return false
      else if r ≠ (n1 : Int) then panic .shortFilewrite
      else filewriteFrom f fuel (src.drop n1)

def filewrite (f : Fin NFILE) (src : List UInt8) : Kern Int := do
  let ff ← file f
  if ff.writable = false then return -1
  else
    match ff.type with
    | .pipe => do
      match ← nextInput with
      | some _ => return (src.length : Int)
      | none => return -1
    | .inode => do
      if ← filewriteFrom f src.length src then return (src.length : Int) else return -1
    | .none => panic .filewrite

end Xv6
