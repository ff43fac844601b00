import Xv6.Fs.Failed
import Xv6.Fs.FreeMap
import Xv6.Vm.System

/-!
# Pipes and their pages

`sys_pipe`, over the file table and the free pages. It takes two files, a page for
the pipe and two descriptors, one after the other. When one of them is missing it
gives back those it has.
-/

namespace Xv6

open Hoare Table Scan

/-- The file system, and the pages of the pipes. -/
structure Kernel where
  fs : Fs
  /-- The pages that `kalloc` can hand out. -/
  free : Vm.Free
  /-- The page of the pipe that a file is open on. -/
  page : Fin NFILE → Vm.Frame
  /-- The open ends of the pipe in a page. -/
  ends : Vm.Frame → Vm.Ends

/-- Code of the file system. -/
def onFs {α : Type} (m : Kern α) : Prog Kernel Stop α := fun w =>
  match m w.fs with
  | .ok (a, fs) => .ok (a, { w with fs := fs })
  | .error e => .error e

variable (lo hi : Nat)

def kalloc : Prog Kernel Stop (Option Vm.Frame) := do
  let w ← get
  let (p, free) := (Vm.kmem lo hi).kalloc w.free
  set { w with free := free }
  return p

def pipeclose (p : Vm.Frame) (writable : Bool) : Prog Kernel Stop Unit := do
  let w ← get
  let ends := (w.ends p).close writable
  let w := { w with ends := upd w.ends p ends }
  if ends.readopen = false ∧ ends.writeopen = false then
    set { w with free := (Vm.kmem lo hi).kfree p w.free }
  else set w

/-- `fileclose` with what it does for a pipe. -/
def closeFile (f : Fin NFILE) : Prog Kernel Stop Unit := do
  let ff ← onFs (file f)
  onFs (fileclose f)
  if ff.ref - 1 = 0 ∧ ff.type = .pipe then pipeclose lo hi ((← get).page f) ff.writable
  else return ()

/-- `f->type = FD_PIPE`, and the other fields. -/
def setPipe (f : Fin NFILE) (p : Vm.Frame) (writable : Bool) : Prog Kernel Stop Unit := do
  onFs (setFile f fun fl => { fl with type := .pipe, readable := !writable, writable := writable })
  modify fun w => { w with page := upd w.page f p }

def pipealloc : Prog Kernel Stop (Option (Fin NFILE × Fin NFILE)) := do
  match ← onFs filealloc with
  | none => return none
  | some f0 =>
    match ← onFs filealloc with
    | none => do
      closeFile lo hi f0
      return none
    | some f1 =>
      match ← kalloc lo hi with
      | none => do
        closeFile lo hi f0
        closeFile lo hi f1
        return none
      | some p => do
        modify fun w => { w with ends := upd w.ends p ⟨true, true⟩ }
        setPipe f0 p false
        setPipe f1 p true
        return some (f0, f1)

/-- `sys_pipe`, with whether `argptr` accepts the address. It also returns the two
descriptors that it stores there. -/
def sysPipe (arg : Bool) : Prog Kernel Stop (Int × Option (Fin NOFILE × Fin NOFILE)) := do
  if arg = false then return (-1, none)
  else
    match ← pipealloc lo hi with
    | none => return (-1, none)
    | some (rf, wf) =>
      match ← onFs (fdalloc rf) with
      | none => do
        closeFile lo hi rf
        closeFile lo hi wf
        return (-1, none)
      | some fd0 =>
        match ← onFs (fdalloc wf) with
        | none => do
          onFs (setOfile fd0 none)
          closeFile lo hi rf
          closeFile lo hi wf
          return (-1, none)
        | some fd1 => return (0, some (fd0, fd1))

/-! ## Rules -/

section

variable {lo hi} {s : Fs} {w : Kernel} {E : Stop → Prop}

@[simp] theorem wp_onFs {α : Type} {m : Kern α} {Q : α → Kernel → Prop} :
    Wp (onFs m) w Q E ↔ Wp m w.fs (fun a fs => Q a { w with fs := fs }) E := by
  unfold Wp onFs
  cases m w.fs <;> rfl

theorem wp_filealloc {Q : Option (Fin NFILE) → Fs → Prop} (hnone : Q none s)
    (hsome : ∀ f, (s.ftable f).ref = 0 → Q (some f) (s.setFile f fun fl => { fl with ref := 1 })) :
    Wp filealloc s Q E := by
  unfold filealloc
  rw [wp_bind, wp_get]
  split
  next f hf =>
    simp only [wp_bind, wp_setFile, wp_pure]
    exact hsome f (of_decide_eq_true (firstFin_some hf))
  next => exact wp_pure.mpr hnone

variable {f : Fin NFILE}

theorem wp_fdalloc {Q : Option (Fin NOFILE) → Fs → Prop} (hnone : Q none s)
    (hsome : ∀ fd, (s.proc s.cur).ofile fd = none →
      Q (some fd) (s.setProc s.cur fun p => { p with ofile := upd p.ofile fd (some f) })) :
    Wp (fdalloc f) s Q E := by
  unfold fdalloc
  simp only [wp_bind, wp_myproc]
  split
  next fd hfd =>
    simp only [wp_bind, wp_setOfile, wp_pure]
    exact hsome fd (Option.isNone_iff_eq_none.mp (firstFin_some hfd))
  next => exact wp_pure.mpr hnone

theorem wp_kalloc {Q : Option Vm.Frame → Kernel → Prop} (hnone : Q none w)
    (hsome : ∀ p l, w.free.list = p :: l → Q (some p) { w with free := { w.free with list := l } }) :
    Wp (kalloc lo hi) w Q E := by
  unfold kalloc
  simp only [wp_bind, wp_get, wp_set, wp_pure, Vm.kmem]
  split
  next => exact hnone
  next p l hl => exact hsome p l hl

theorem wp_fileclose_last {Q : Unit → Fs → Prop} (h1 : (s.ftable f).ref = 1)
    (hty : (s.ftable f).type ≠ .inode) :
    Wp (fileclose f) s Q E ↔ Q () (s.setFile f fun fl => { fl with ref := 0, type := .none }) := by
  unfold fileclose
  simp only [wp_bind, wp_file, h1]
  rw [if_neg (by decide), if_neg (by decide)]
  simp only [wp_bind, wp_setFile]
  cases htype : (s.ftable f).type with
  | inode => exact absurd htype hty
  | pipe => exact wp_pure
  | none => exact wp_pure

theorem wp_closeFile_none {Q : Unit → Kernel → Prop} (h1 : (w.fs.ftable f).ref = 1)
    (hin : (w.fs.ftable f).type ≠ .inode) (hpi : (w.fs.ftable f).type ≠ .pipe) :
    Wp (closeFile lo hi f) w Q E ↔
      Q () { w with fs := w.fs.setFile f fun fl => { fl with ref := 0, type := .none } } := by
  unfold closeFile
  simp only [wp_bind, wp_onFs, wp_file, wp_fileclose_last h1 hin]
  rw [if_neg fun hc => hpi hc.2, wp_pure]

theorem wp_closeFile_pipe {Q : Unit → Kernel → Prop} (h1 : (w.fs.ftable f).ref = 1)
    (hpi : (w.fs.ftable f).type = .pipe) :
    Wp (closeFile lo hi f) w Q E ↔ Wp (pipeclose lo hi (w.page f) (w.fs.ftable f).writable)
      { w with fs := w.fs.setFile f fun fl => { fl with ref := 0, type := .none } } Q E := by
  unfold closeFile
  have hin : (w.fs.ftable f).type ≠ .inode := by rw [hpi]; decide
  simp only [wp_bind, wp_onFs, wp_file, wp_fileclose_last h1 hin]
  rw [if_pos ⟨by rw [h1], hpi⟩, wp_bind, wp_get]

end

/-! ## Calls that fail -/

section

variable {lo hi} {w t u : Kernel} {f0 f1 : Fin NFILE}

/-- A state between two calls. A file that nobody refers to is no pipe. -/
structure Kernel.Fine (w : Kernel) : Prop where
  fs : w.fs.Fine
  closed : ∀ f, (w.fs.ftable f).ref = 0 → (w.fs.ftable f).type ≠ .pipe

/-- Nothing that a call can see differs, and neither do the free blocks of the disk
and the free pages. -/
structure Kernel.Unchanged (w t : Kernel) : Prop where
  fs : w.fs.Unchanged t.fs
  bits : SameBits w.fs t.fs
  free : t.free.list = w.free.list

theorem Kernel.Unchanged.refl (w : Kernel) : w.Unchanged w :=
  ⟨⟨rfl, .refl _, fun _ => rfl, fun _ _ => rfl⟩, .of_blk rfl rfl, rfl⟩

theorem Kernel.Unchanged.of_ftable (f0 f1 : Fin NFILE) (hfs : t.fs = { w.fs with ftable := t.fs.ftable })
    (hoff : ∀ f, f ≠ f0 → f ≠ f1 → t.fs.ftable f = w.fs.ftable f)
    (h0 : (w.fs.ftable f0).ref = 0 ∧ (t.fs.ftable f0).ref = 0)
    (h1 : (w.fs.ftable f1).ref = 0 ∧ (t.fs.ftable f1).ref = 0)
    (hfree : t.free.list = w.free.list) : w.Unchanged t := by
  obtain ⟨ft, hft⟩ : ∃ ft, ft = t.fs.ftable := ⟨_, rfl⟩
  rw [← hft] at hfs hoff h0 h1
  have hsame : w.fs.user.Same ⟨ft, w.fs.proc⟩ := by
    refine ⟨rfl, fun f => ?_, fun f hf => hoff f ?_ ?_⟩
    · by_cases hf0 : f = f0
      · rw [hf0]
        exact h0.2.trans h0.1.symm
      · by_cases hf1 : f = f1
        · rw [hf1]
          exact h1.2.trans h1.1.symm
        · exact congrArg File.ref (hoff f hf0 hf1)
    · rintro rfl
      exact hf h0.1
    · rintro rfl
      exact hf h1.1
  refine ⟨?_, ?_, hfree⟩
  · rw [hfs]
    exact ⟨rfl, hsame, fun _ => rfl, fun _ _ => rfl⟩
  · rw [hfs]
    exact .of_blk rfl rfl

/-- A new pipe: two files that nobody referred to, and a page that was free. -/
structure NewPipe (w t : Kernel) (f0 f1 : Fin NFILE) : Prop where
  fs : t.fs = { w.fs with ftable := t.fs.ftable }
  off : ∀ f, f ≠ f0 → f ≠ f1 → t.fs.ftable f = w.fs.ftable f
  ne : f1 ≠ f0
  unused : (w.fs.ftable f0).ref = 0 ∧ (w.fs.ftable f1).ref = 0
  ref : (t.fs.ftable f0).ref = 1 ∧ (t.fs.ftable f1).ref = 1
  type : (t.fs.ftable f0).type = .pipe ∧ (t.fs.ftable f1).type = .pipe
  writable : (t.fs.ftable f0).writable = false ∧ (t.fs.ftable f1).writable = true
  page : t.page f0 = t.page f1
  ends : t.ends (t.page f1) = ⟨true, true⟩
  free : t.page f1 :: t.free.list = w.free.list

def PipeallocPost (w : Kernel) : Option (Fin NFILE × Fin NFILE) → Kernel → Prop
  | none, t => w.Unchanged t
  | some (f0, f1), t => NewPipe w t f0 f1

theorem pipealloc_spec (hw : w.Fine) (E : Stop → Prop) : Wp (pipealloc lo hi) w (PipeallocPost w) E := by
  have hclosed : ∀ f, (w.fs.ftable f).ref = 0 → (w.fs.ftable f).type ≠ .inode :=
    hw.fs.idle.closed
  unfold pipealloc
  rw [wp_bind, wp_onFs]
  refine wp_filealloc (wp_pure.mpr (.refl w)) fun f0 h0 => ?_
  dsimp only
  rw [wp_bind, wp_onFs]
  refine wp_filealloc ?_ fun f1 h1 => ?_
  · have hf : (w.fs.setFile f0 fun fl => { fl with ref := 1 }).ftable f0 =
        { w.fs.ftable f0 with ref := 1 } := upd_same _ _ _
    rw [wp_bind, wp_closeFile_none (by rw [hf]) (by rw [hf]; exact hclosed f0 h0)
      (by rw [hf]; exact hw.closed f0 h0), wp_pure]
    refine .of_ftable f0 f0 rfl (fun f hne _ => ?_) ⟨h0, ?_⟩ ⟨h0, ?_⟩ rfl
    · exact (upd_ne _ _ hne).trans (upd_ne _ _ hne)
    · exact congrArg File.ref (upd_same _ _ _)
    · exact congrArg File.ref (upd_same _ _ _)
  dsimp only
  have hne : f1 ≠ f0 := by
    rintro rfl
    rw [show ((w.fs.setFile f1 fun fl => { fl with ref := 1 }).ftable f1).ref = 1 from
      congrArg File.ref (upd_same _ _ _)] at h1
    cases h1
  replace h1 : (w.fs.ftable f1).ref = 0 := (congrArg File.ref (upd_ne _ _ hne)).symm.trans h1
  obtain ⟨ft, hft⟩ : ∃ ft, ft = upd (upd w.fs.ftable f0 { w.fs.ftable f0 with ref := 1 }) f1
    { w.fs.ftable f1 with ref := 1 } := ⟨_, rfl⟩
  have hf0 : ft f0 = { w.fs.ftable f0 with ref := 1 } := by
    rw [hft, upd_ne _ _ hne.symm, upd_same]
  have hf1 : ft f1 = { w.fs.ftable f1 with ref := 1 } := by
    rw [hft, upd_same]
  have hoff : ∀ f, f ≠ f0 → f ≠ f1 → ft f = w.fs.ftable f := fun f h h' => by
    rw [hft, upd_ne _ _ h', upd_ne _ _ h]
  have hfs : (w.fs.setFile f0 fun fl => { fl with ref := 1 }).setFile f1
      (fun fl => { fl with ref := 1 }) = { w.fs with ftable := ft } := by
    rw [hft]
    unfold Fs.setFile
    dsimp only
    rw [upd_ne _ _ hne]
  rw [hfs, wp_bind]
  refine wp_kalloc ?_ fun p l hl => ?_
  · dsimp only
    rw [wp_bind, wp_closeFile_none (by dsimp only; rw [hf0]) (by dsimp only; rw [hf0]; exact hclosed f0 h0)
      (by dsimp only; rw [hf0]; exact hw.closed f0 h0)]
    have hf1' : (Fs.setFile { w.fs with ftable := ft } f0
        fun fl => { fl with ref := 0, type := .none }).ftable f1 = { w.fs.ftable f1 with ref := 1 } :=
      (upd_ne _ _ hne).trans hf1
    rw [wp_bind, wp_closeFile_none (by rw [hf1']) (by rw [hf1']; exact hclosed f1 h1)
      (by rw [hf1']; exact hw.closed f1 h1), wp_pure]
    refine .of_ftable f0 f1 rfl (fun f h h' => ?_) ⟨h0, ?_⟩ ⟨h1, ?_⟩ rfl
    · exact ((upd_ne _ _ h').trans (upd_ne _ _ h)).trans (hoff f h h')
    · exact congrArg File.ref ((upd_ne _ _ hne.symm).trans (upd_same _ _ _))
    · exact congrArg File.ref (upd_same _ _ _)
  · unfold setPipe
    simp only [wp_bind, wp_modify, wp_onFs, wp_setFile, wp_pure]
    have hg0 : ∀ F F' : File → File, ((Fs.setFile { w.fs with ftable := ft } f0 F).setFile f1 F').ftable f0 =
        F { w.fs.ftable f0 with ref := 1 } := fun F F' => by
      unfold Fs.setFile
      dsimp only
      rw [upd_ne _ _ hne.symm, upd_same, hf0]
    have hg1 : ∀ F F' : File → File, ((Fs.setFile { w.fs with ftable := ft } f0 F).setFile f1 F').ftable f1 =
        F' { w.fs.ftable f1 with ref := 1 } := fun F F' => by
      unfold Fs.setFile
      dsimp only
      rw [upd_same, upd_ne _ _ hne, hf1]
    have hp0 : ∀ q q' : Vm.Frame, upd (upd w.page f0 q) f1 q' f0 = q := fun q q' => by
      rw [upd_ne _ _ hne.symm, upd_same]
    refine ⟨rfl, fun f h h' => ?_, hne, ⟨h0, h1⟩, ⟨?_, ?_⟩, ⟨?_, ?_⟩, ⟨?_, ?_⟩, ?_, ?_, ?_⟩
    · exact ((upd_ne _ _ h').trans (upd_ne _ _ h)).trans (hoff f h h')
    · rw [hg0]
    · rw [hg1]
    · rw [hg0]
    · rw [hg1]
    · rw [hg0]
    · rw [hg1]
    · exact (hp0 p p).trans (upd_same _ _ _).symm
    · dsimp only
      rw [upd_same, upd_same]
    · dsimp only
      rw [upd_same, hl]

theorem closeBoth_spec (h : NewPipe w t f0 f1) {α : Type} (a : α) (E : Stop → Prop) :
    Wp (do closeFile lo hi f0; closeFile lo hi f1; return a) t (fun _ u => w.Unchanged u) E := by
  obtain ⟨p, hp⟩ : ∃ p, p = t.page f1 := ⟨_, rfl⟩
  have hends := h.ends
  rw [wp_bind, wp_closeFile_pipe h.ref.1 h.type.1, h.page, h.writable.1]
  rw [← hp] at hends ⊢
  unfold pipeclose
  simp only [wp_bind, wp_get, hends]
  rw [if_neg (by decide), wp_set]
  have hf1 : (t.fs.setFile f0 fun fl => { fl with ref := 0, type := .none }).ftable f1 = t.fs.ftable f1 :=
    upd_ne _ _ h.ne
  rw [wp_closeFile_pipe (by dsimp only; rw [hf1]; exact h.ref.2) (by dsimp only; rw [hf1]; exact h.type.2)]
  dsimp only
  rw [hf1, h.writable.2, ← hp]
  unfold pipeclose
  simp only [wp_bind, wp_get, upd_same]
  rw [if_pos (by decide), wp_set, wp_pure]
  refine .of_ftable f0 f1 ?_ (fun f h0 h1 => ?_) ⟨h.unused.1, ?_⟩ ⟨h.unused.2, ?_⟩ ?_
  · dsimp only
    rw [h.fs]
    rfl
  · exact ((upd_ne _ _ h1).trans (upd_ne _ _ h0)).trans (h.off f h0 h1)
  · exact congrArg File.ref ((upd_ne _ _ h.ne.symm).trans (upd_same _ _ _))
  · exact congrArg File.ref (upd_same _ _ _)
  · exact (congrArg (· :: t.free.list) hp).trans h.free

theorem sysPipe_spec (hw : w.Fine) (arg : Bool) (E : Stop → Prop) :
    Wp (sysPipe lo hi arg) w (fun r t => r.1 = -1 → w.Unchanged t) E := by
  unfold sysPipe
  refine wp_ite (fun _ => wp_pure.mpr fun _ => .refl w) fun _ => ?_
  refine (pipealloc_spec hw E).seq ?_
  rintro (_ | ⟨rf, wf⟩) t ht
  · exact wp_pure.mpr fun _ => ht
  have hboth : ∀ a : Int × Option (Fin NOFILE × Fin NOFILE),
      Wp (do closeFile lo hi rf; closeFile lo hi wf; return a) t (fun r u => r.1 = -1 → w.Unchanged u) E :=
    fun a => (closeBoth_spec ht a E).imp fun _ _ hu _ => hu
  dsimp only
  rw [wp_bind, wp_onFs]
  refine wp_fdalloc (hboth _) fun fd0 hfd0 => ?_
  dsimp only
  rw [wp_bind, wp_onFs]
  refine wp_fdalloc ?_ fun fd1 _ => wp_pure.mpr fun hc => absurd hc (by decide : (0 : Int) ≠ -1)
  dsimp only
  rw [wp_bind, wp_onFs, wp_setOfile]
  -- The first descriptor was free before.
  have hback : (t.fs.setProc t.fs.cur fun p => { p with ofile := upd p.ofile fd0 (some rf) }).setProc
      t.fs.cur (fun p => { p with ofile := upd p.ofile fd0 none }) = t.fs := by
    unfold Fs.setProc
    dsimp only
    rw [upd_upd, upd_same, upd_upd]
    have hofile : upd (t.fs.proc t.fs.cur).ofile fd0 none = (t.fs.proc t.fs.cur).ofile := by
      rw [← hfd0]
      exact upd_eq_self _ _
    rw [hofile, upd_eq_self]
  have hcur : (t.fs.setProc t.fs.cur fun p => { p with ofile := upd p.ofile fd0 (some rf) }).cur =
      t.fs.cur := rfl
  rw [hcur, hback]
  exact hboth _

theorem sysDup_failed {s : Fs} (fd : Int) : Wp (sysDup fd) s (fun r t => r = -1 → t = s) fun _ => True := by
  unfold sysDup
  refine wp_bind.mpr (wp_argfd ?_)
  rintro (_ | ⟨-, f⟩)
  · exact wp_pure.mpr fun _ => rfl
  rw [wp_bind]
  refine wp_fdalloc (wp_pure.mpr fun _ => rfl) fun fd' _ => ?_
  refine (wp_any (filedup f)).bind (fun _ _ _ => wp_pure.mpr fun hc => ?_) fun _ _ => trivial
  omega

end

/-- The calls that work on names and descriptors, with their arguments. -/
inductive NameCall where
  | link (old new : Option (List UInt8))
  | unlink (path : Option (List UInt8))
  | mkdir (path : Option (List UInt8))
  | mknod (path : Option (List UInt8)) (major minor : Int16)
  | chdir (path : Option (List UInt8))
  | dup (fd : Int)
  | pipe (arg : Bool)

def NameCall.exec : NameCall → Prog Kernel Stop Int
  | .link old new => onFs (sysLink old new)
  | .unlink path => onFs (sysUnlink path)
  | .mkdir path => onFs (sysMkdir path)
  | .mknod path major minor => onFs (sysMknod path major minor)
  | .chdir path => onFs (sysChdir path)
  | .dup fd => onFs (sysDup fd)
  | .pipe arg => do return (← sysPipe lo hi arg).1

section

variable {lo hi} {w t : Kernel}

theorem CallPost.unchanged {s s' : Fs} (hs : s.Fine) {P : View → Prop} (h : CallPost s.view P s')
    (hP : ∀ g', P g' → g' = s.view) : s.Unchanged s' := by
  obtain ⟨g', ht, hr, -, -, hpost⟩ := h
  obtain ⟨hp, -⟩ := hpost hs.settled hs.nonNeg
  obtain rfl := hP g' hp
  exact .of_view hs.sound ht hr rfl rfl (.refl _)

theorem Outcome.eq_of_failed {g g' : View} {P : View → Prop} (h : Outcome g P (-1) g') : g' = g := by
  rcases h with ⟨-, rfl⟩ | ⟨hne, -⟩
  · rfl
  · exact absurd rfl hne

theorem onFs_failed {m : Kern Int} {P : Int → Fs → Prop} {E : Stop → Prop}
    (hspec : Wp m w.fs P E) (hun : ∀ s, P (-1) s → w.fs.Unchanged s)
    (hbits : Wp m w.fs (fun r s => r = -1 → SameBits w.fs s) fun _ => True)
    (h : onFs m w = .ok (-1, t)) : w.Unchanged t := by
  have hall : Wp (onFs m) w (fun r t => r = -1 → w.Unchanged t) fun e => E e ∧ True := by
    refine wp_onFs.mpr ((hspec.and hbits).imp ?_)
    rintro r s ⟨hp, hb⟩ rfl
    exact ⟨hun s hp, hb rfl, rfl⟩
  exact wp_ok hall h rfl

/-- A call on names or descriptors that returns -1 changes nothing. -/
theorem name_call_failed_unchanged (hw : w.Fine) (c : NameCall) (h : c.exec lo hi w = .ok (-1, t)) :
    w.Unchanged t := by
  have hinv := hw.fs.sound.inv
  have hidle := hw.fs.idle
  have hset := hw.fs.settled
  cases c with
  | link old new =>
    exact onFs_failed (sysLink_spec hinv hidle old new)
      (fun _ hp => hp.unchanged hw.fs fun _ ho => ho.1.eq_of_failed)
      (sysLink_bits hinv hidle hset old new) h
  | unlink path =>
    exact onFs_failed (sysUnlink_spec hinv hidle path)
      (fun _ hp => hp.unchanged hw.fs fun _ ho => ho.1.eq_of_failed)
      (sysUnlink_bits hinv hidle hset path) h
  | mkdir path =>
    exact onFs_failed (makeNode_spec hinv hidle path (by decide) 0 0)
      (fun _ hp => hp.unchanged hw.fs fun _ ho => ho.eq_of_failed)
      (makeNode_bits hinv hidle hset path T_DIR 0 0) h
  | mknod path major minor =>
    exact onFs_failed (makeNode_spec hinv hidle path (by decide) major minor)
      (fun _ hp => hp.unchanged hw.fs fun _ ho => ho.eq_of_failed)
      (makeNode_bits hinv hidle hset path T_DEV major minor) h
  | chdir path =>
    exact onFs_failed (sysChdir_spec hinv hidle path)
      (fun _ hp => hp.unchanged hw.fs fun _ ho => ho.eq_of_failed)
      (sysChdir_bits hinv hidle hset path) h
  | dup fd =>
    have hwp : Wp (onFs (sysDup fd)) w (fun r t => r = -1 → w.Unchanged t) fun _ => True := by
      refine wp_onFs.mpr ((sysDup_failed fd).imp fun r s hs hr => ?_)
      rw [hs hr]
      exact .refl w
    exact wp_ok hwp h rfl
  | pipe arg =>
    have hwp : Wp (NameCall.exec lo hi (.pipe arg)) w (fun r t => r = -1 → w.Unchanged t)
        fun _ => True :=
      (sysPipe_spec hw arg _).seq (fun _ _ hu => wp_pure.mpr hu)
    exact wp_ok hwp h rfl

end

namespace Tiny

/-- No unused file of the table is a pipe. -/
def noPipe (s : Fs) : Bool := decide (∀ f, (s.ftable f).ref = 0 → (s.ftable f).type ≠ .pipe)

def onePage (s : Fs) : Kernel :=
  ⟨s, ⟨[⟨1, Nat.one_ne_zero⟩], false⟩, fun _ => ⟨1, Nat.one_ne_zero⟩, fun _ => ⟨false, false⟩⟩

def fails (c : NameCall) (w : Kernel) : Bool :=
  match c.exec 1 2 w with
  | .ok (r, _) => decide (r = -1)
  | .error _ => false

theorem exists_of_fails {c : NameCall} {w : Kernel} (h : fails c w = true) :
    ∃ t, c.exec 1 2 w = .ok (-1, t) := by
  unfold fails at h
  split at h
  next r t hm => exact ⟨t, of_decide_eq_true h ▸ hm⟩
  next => cases h

/-- A process with one descriptor left asks for a pipe: the files, the page and the
descriptor that `pipe` took are given back. -/
theorem name_call_failed_unchanged_pipe : ∃ s t, (onePage s).Fine ∧
    NameCall.exec 1 2 (.pipe true) (onePage s) = .ok (-1, t) ∧ (onePage s).Unchanged t := by
  obtain ⟨s, -, hs, hp⟩ := @exists_of_reaches takeAll.dropLast
    (fun s => linked s && noPipe s && fails (.pipe true) (onePage s)) (by decide +kernel)
  simp only [Bool.and_eq_true] at hp
  obtain ⟨⟨hlinked, hno⟩, hfails⟩ := hp
  obtain ⟨t, ht⟩ := exists_of_fails hfails
  have hfine : (onePage s).Fine := ⟨fine_of_linked hs hlinked, of_decide_eq_true hno⟩
  exact ⟨s, t, hfine, ht, name_call_failed_unchanged hfine (.pipe true) ht⟩

end Tiny

end Xv6
