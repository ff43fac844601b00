import Xv6.Lib.Scan
import Xv6.Lib.Trans
import Xv6.Vm.Count

/-!
# Processes, pipes and their pages

The pages of the whole system: the free list, the kernel's page directory, for each process
its directory and its kernel stack, and the pipes. The calls are `fork`, `exec`, `sbrk`,
`pipe`, `close`, `exit` and `wait`, with every path on which memory or a slot of a table
runs out. There is one CPU.

What `exec` reads from the file is part of the event. `copyout` is modelled by the pages it
writes to. A page of the new address space belongs to it, and what is written there is the
program's. But `uva2ka()` does not test whether `walkpgdir()` has found a page table: where
there is none it reads the entry at address 0, which is the first word of the memory of the
process that calls. Such a write goes to any frame (`Stray`). Of its effects those on page
tables are modelled.
-/

namespace Xv6.Vm

open Table Scan

/-- The maximal number of arguments of `exec`. -/
abbrev MAXARG : Nat := 32

inductive PState where
  | unused
  | alive
  | zombie
deriving DecidableEq

/-- A slot of the process table. -/
structure Slot where
  state : PState
  kstack : Option Frame
  mem : Option Proc
  parent : Fin NPROC
  ofile : Fin NOFILE → Option (Fin NFILE)

/-- An entry of the file table: an end of a pipe, with the page of the pipe and whether it is the
end for writing. -/
structure File where
  ref : Nat
  pipe : Option (Frame × Bool)

/-- The ends of a pipe that are open. -/
structure Ends where
  readopen : Bool
  writeopen : Bool

def Ends.isOpen (p : Ends) (writable : Bool) : Bool := if writable then p.writeopen else p.readopen

def Ends.close (p : Ends) (writable : Bool) : Ends :=
  if writable then { p with writeopen := false } else { p with readopen := false }

structure Sys where
  free : Free
  kpgdir : Pgdir
  slot : Fin NPROC → Slot
  file : Fin NFILE → File
  pipe : Frame → Ends

/-- Why the kernel stops. -/
inductive Stop where
  | vm (p : Panic)
  /-- `filedup` and `fileclose` of a file that is not open. -/
  | file
  /-- `init exiting`. -/
  | initExiting
  | clearpteu
  /-- `kfree(0)` or `freevm(0)`. -/
  | noPage

def Sys.setSlot (s : Sys) (i : Fin NPROC) (x : Slot) : Sys := { s with slot := upd s.slot i x }

variable (lo hi : Nat)

/-! ## `exec` -/

/-- A program header. -/
structure Phdr where
  load : Bool
  vaddr : Nat
  filesz : Nat
  memsz : Nat

/-- An argument: its length and its words. -/
structure Arg where
  len : Nat
  word : Nat → Nat

/-- The call of `exec`: whether the file is there and has the magic number, its program headers,
those that can be read, with whether their segments can be loaded, the arguments, and the word at
address 0 of the process. -/
structure ExecCall where
  opens : Bool
  phdrs : List (Option (Phdr × Bool))
  args : List Arg
  word0 : Nat

/-- The loop over the program headers: the size, unless a header is bad. -/
def loadSegs : List (Option (Phdr × Bool)) → Nat → Pgdir → Free →
    Except Panic (Option Nat × Pgdir × Free)
  | [], sz, d, s => .ok (some sz, d, s)
  | none :: _, _, d, s => .ok (none, d, s)
  | some (ph, loads) :: phs, sz, d, s =>
    if ph.load then
      if ph.memsz < ph.filesz then .ok (none, d, s)
      else if (ph.vaddr + ph.memsz) % 2 ^ 32 < ph.vaddr then .ok (none, d, s)
      else
        match allocuvm (kmem lo hi) d sz ((ph.vaddr + ph.memsz) % 2 ^ 32) s with
        | .error x => .error x
        | .ok (0, d, s) => .ok (none, d, s)
        | .ok (sz + 1, d, s) =>
          if ph.vaddr % PGSIZE ≠ 0 then .ok (none, d, s)
          else if loads then loadSegs phs (sz + 1) d s
          else .ok (none, d, s)
    else loadSegs phs sz d s

/-- A write to a frame that `copyout` took from address 0: the words from `first` on are those of
the argument from `start` on. -/
structure Stray where
  frame : Nat
  first : Nat
  words : Nat
  start : Nat
  word : Nat → Nat

/-- What `uva2ka` finds. -/
inductive Ka where
  | none
  | page
  | stray (frame : Nat)

/-- `uva2ka` of page `p`. Entries of the kernel's page tables have no `PTE_U`. -/
def uva2ka (d : Pgdir) (p word0 : Nat) : Ka :=
  match d.pde (p / NPTENTRIES) with
  | none => if word0 % 2 = 1 ∧ word0 / 4 % 2 = 1 then .stray (word0 / PGSIZE) else .none
  | some t =>
    match t.pte (p % NPTENTRIES) with
    | none => .none
    | some e => if e.user then .page else .none

/-- The loop of `copyout`, with the bytes copied so far: whether it succeeds, and the stray writes. -/
def copyout (d : Pgdir) (word0 : Nat) (word : Nat → Nat) : Nat → Nat → Nat → Nat → Bool × List Stray
  | 0, _, _, _ => (true, [])
  | m + 1, va, len, done =>
    if len = 0 then (true, [])
    else
      let n := min (PGSIZE - va % PGSIZE) len
      match uva2ka d (va / PGSIZE) word0 with
      | .none => (false, [])
      | .page => copyout d word0 word m ((va / PGSIZE + 1) * PGSIZE % 2 ^ 32) (len - n) (done + n)
      | .stray f =>
        let r := copyout d word0 word m ((va / PGSIZE + 1) * PGSIZE % 2 ^ 32) (len - n) (done + n)
        (r.1, ⟨f, va % PGSIZE / 4, n / 4, done / 4, word⟩ :: r.2)

/-- The stack pointer below `len` bytes. -/
def pushed (sp len : Nat) : Nat := (sp + 2 ^ 32 - len % 2 ^ 32) % 2 ^ 32 / 4 * 4

/-- The loop over the arguments: whether all are copied, the stack pointer, and the stray writes. -/
def pushArgs (d : Pgdir) (word0 : Nat) : List Arg → Nat → Nat → Bool × Nat × List Stray
  | [], _, sp => (true, sp, [])
  | a :: as, argc, sp =>
    if MAXARG ≤ argc then (false, sp, [])
    else
      let sp := pushed sp (a.len + 1)
      let r := copyout d word0 a.word (a.len / PGSIZE + 2) sp (a.len + 1) 0
      if r.1 then
        let r' := pushArgs d word0 as (argc + 1) sp
        (r'.1, r'.2.1, r.2 ++ r'.2.2)
      else (false, sp, r.2)

/-- The arguments and `ustack` on the stack. -/
def pushStack (d : Pgdir) (call : ExecCall) (sz : Nat) : Bool × List Stray :=
  let r := pushArgs d call.word0 call.args 0 sz
  if r.1 then
    let bytes := (3 + call.args.length + 1) * 4
    let r' := copyout d call.word0 (fun _ => 0) 2 (pushed r.2.1 bytes) bytes 0
    (r'.1, r.2.2 ++ r'.2)
  else (false, r.2.2)

/-- The new address space and its size, if nothing went wrong, and the stray writes. -/
def image (call : ExecCall) (d : Pgdir) (s : Free) :
    Except Stop (Option Nat × Pgdir × Free × List Stray) :=
  match loadSegs lo hi call.phdrs 0 d s with
  | .error x => .error (.vm x)
  | .ok (none, d, s) => .ok (none, d, s, [])
  | .ok (some sz, d, s) =>
    match allocuvm (kmem lo hi) d (pages sz * PGSIZE) (pages sz * PGSIZE + 2 * PGSIZE) s with
    | .error x => .error (.vm x)
    | .ok (0, d, s) => .ok (none, d, s, [])
    | .ok (sz + 1, d, s) =>
      let guard := (sz + 1) / PGSIZE - 2
      match d.pde (guard / NPTENTRIES) with
      | none => .error .clearpteu
      | some _ =>
        let d := d.setPte guard ((d.pte guard).map fun e => { e with user := false })
        let r := pushStack d call (sz + 1)
        .ok (if r.1 then some (sz + 1) else none, d, s, r.2)

/-- An entry of a page table, as the hardware reads it. -/
def decode (w : Nat) : Option Pte :=
  if w % 2 = 1 then
    if h : w / PGSIZE ≠ 0 then some ⟨⟨w / PGSIZE, h⟩, w / 4 % 2 = 1⟩ else none
  else none

def Stray.onTable (w : Stray) (t : Pgtab) : Pgtab :=
  if t.frame.val = w.frame then
    { t with pte := fun j =>
        if w.first ≤ j ∧ j < w.first + w.words then decode (w.word (w.start + (j - w.first)))
        else t.pte j }
  else t

def Stray.onDir (w : Stray) (d : Pgdir) : Pgdir := { d with pde := fun i => (d.pde i).map w.onTable }

def Stray.onSys (s : Sys) (w : Stray) : Sys :=
  { s with
    kpgdir := w.onDir s.kpgdir
    slot := fun i => { s.slot i with
      mem := (s.slot i).mem.map fun m => { m with pgdir := w.onDir m.pgdir } } }

def exec (c : Fin NPROC) (call : ExecCall) (s : Sys) : Except Stop Sys :=
  match call.opens, (s.slot c).mem with
  | false, _ => .ok s
  | true, none => .error .noPage
  | true, some old =>
    match setupkvm (kmem lo hi) s.free with
    | .error x => .error (.vm x)
    | .ok (none, free) => .ok { s with free := free }
    | .ok (some d, free) =>
      match image lo hi call d free with
      | .error x => .error x
      | .ok (none, d, free, strays) =>
        match freevm (kmem lo hi) d free with
        | .error x => .error (.vm x)
        | .ok free => .ok (strays.foldl Stray.onSys { s with free := free })
      | .ok (some sz, d, free, strays) =>
        match freevm (kmem lo hi) old.pgdir free with
        | .error x => .error (.vm x)
        | .ok free =>
          .ok (strays.foldl Stray.onSys
            ({ s with free := free }.setSlot c { s.slot c with mem := some ⟨sz, d⟩ }))

/-! ## Files -/

/-- `filedup` of the files of a process. -/
def dupFiles (file : Fin NFILE → File) : List (Option (Fin NFILE)) → Except Stop (Fin NFILE → File)
  | [] => .ok file
  | none :: fs => dupFiles file fs
  | some f :: fs =>
    if (file f).ref < 1 then .error .file
    else dupFiles (upd file f { file f with ref := (file f).ref + 1 }) fs

def pipeclose (s : Sys) (p : Frame) (writable : Bool) : Sys :=
  let ends := (s.pipe p).close writable
  let s := { s with pipe := upd s.pipe p ends }
  if ends.readopen = false ∧ ends.writeopen = false then
    { s with free := (kmem lo hi).kfree p s.free }
  else s

def fileclose (s : Sys) (f : Fin NFILE) : Except Stop Sys :=
  if (s.file f).ref < 1 then .error .file
  else if 1 < (s.file f).ref then
    .ok { s with file := upd s.file f { s.file f with ref := (s.file f).ref - 1 } }
  else
    let s' := { s with file := upd s.file f ⟨0, none⟩ }
    match (s.file f).pipe with
    | none => .ok s'
    | some (p, writable) => .ok (pipeclose lo hi s' p writable)

/-- `close` of the descriptor `fd` of process `c`. -/
def close (c : Fin NPROC) (fd : Fin NOFILE) (s : Sys) : Except Stop Sys :=
  match (s.slot c).ofile fd with
  | none => .ok s
  | some f =>
    fileclose lo hi (s.setSlot c { s.slot c with ofile := upd (s.slot c).ofile fd none }) f

def closeAll (c : Fin NPROC) : List (Fin NOFILE) → Sys → Except Stop Sys
  | [], s => .ok s
  | fd :: fds, s =>
    match close lo hi c fd s with
    | .error x => .error x
    | .ok s => closeAll c fds s

def filealloc (file : Fin NFILE → File) : Option (Fin NFILE) :=
  firstFin fun f => decide ((file f).ref = 0)

def fdalloc (x : Slot) : Option (Fin NOFILE) := firstFin fun fd => (x.ofile fd).isNone

/-- `sys_pipe`, with `pipealloc`. -/
def pipe (c : Fin NPROC) (s : Sys) : Except Stop Sys :=
  match filealloc s.file with
  | none => .ok s
  | some f0 =>
    match filealloc (upd s.file f0 { s.file f0 with ref := 1 }) with
    | none => .ok { s with file := upd s.file f0 ⟨0, none⟩ }
    | some f1 =>
      match (kmem lo hi).kalloc s.free with
      | (none, free) =>
        .ok { s with free := free, file := upd (upd s.file f0 ⟨0, none⟩) f1 ⟨0, none⟩ }
      | (some p, free) =>
        let s : Sys := { s with
          free := free
          pipe := upd s.pipe p ⟨true, true⟩
          file := upd (upd s.file f0 ⟨1, some (p, false)⟩) f1 ⟨1, some (p, true)⟩ }
        match fdalloc (s.slot c) with
        | none =>
          match fileclose lo hi s f0 with
          | .error x => .error x
          | .ok s => fileclose lo hi s f1
        | some fd0 =>
          let x := { s.slot c with ofile := upd (s.slot c).ofile fd0 (some f0) }
          match fdalloc x with
          | none =>
            match fileclose lo hi s f0 with
            | .error x => .error x
            | .ok s => fileclose lo hi s f1
          | some fd1 => .ok (s.setSlot c { x with ofile := upd x.ofile fd1 (some f1) })

/-! ## Processes -/

/-- `fork`, with `allocproc`. -/
def fork (c : Fin NPROC) (s : Sys) : Except Stop Sys :=
  match firstFin fun i => decide ((s.slot i).state = .unused) with
  | none => .ok s
  | some np =>
    match (kmem lo hi).kalloc s.free, (s.slot c).mem with
    | (none, free), _ => .ok { s with free := free }
    | (some _, _), none => .error .noPage
    | (some kstack, free), some m =>
      match copyuvm (kmem lo hi) m.pgdir m.sz free with
      | .error x => .error (.vm x)
      | .ok (none, free) => .ok { s with free := (kmem lo hi).kfree kstack free }
      | .ok (some d, free) =>
        match dupFiles s.file ((List.finRange NOFILE).map (s.slot c).ofile) with
        | .error x => .error x
        | .ok file =>
          .ok ({ s with free := free, file := file }.setSlot np
            ⟨.alive, some kstack, some ⟨m.sz, d⟩, c, (s.slot c).ofile⟩)

/-- Slot `i` when process `c` has exited: its children are those of `init`. -/
def Slot.exited (c i : Fin NPROC) (x : Slot) : Slot :=
  let x := if x.parent = c then { x with parent := 0 } else x
  if i = c then { x with state := .zombie } else x

def exit (c : Fin NPROC) (s : Sys) : Except Stop Sys :=
  if c = 0 then .error .initExiting
  else
    match closeAll lo hi c (List.finRange NOFILE) s with
    | .error x => .error x
    | .ok s => .ok { s with slot := fun i => (s.slot i).exited c i }

/-- `wait`, when there is a child to reap. -/
def wait (c : Fin NPROC) (s : Sys) : Except Stop Sys :=
  match firstFin fun i => decide ((s.slot i).parent = c ∧ (s.slot i).state = .zombie) with
  | none => .ok s
  | some i =>
    match (s.slot i).kstack, (s.slot i).mem with
    | some kstack, some m =>
      match freevm (kmem lo hi) m.pgdir ((kmem lo hi).kfree kstack s.free) with
      | .error x => .error (.vm x)
      | .ok free =>
        .ok ({ s with free := free }.setSlot i
          { s.slot i with state := .unused, kstack := none, mem := none, parent := 0 })
    | _, _ => .error .noPage

def sbrk (c : Fin NPROC) (n : Int32) (s : Sys) : Except Stop Sys :=
  match (s.slot c).mem with
  | none => .error .noPage
  | some m =>
    match sysSbrk (kmem lo hi) m n s.free with
    | .error x => .error (.vm x)
    | .ok (_, m, free) => .ok ({ s with free := free }.setSlot c { s.slot c with mem := some m })

/-! ## Runs -/

inductive Call where
  | fork
  | exec (call : ExecCall)
  | sbrk (n : Int32)
  | pipe
  | close (fd : Fin NOFILE)
  | exit
  | wait

structure Event where
  proc : Fin NPROC
  call : Call

def runCall (c : Fin NPROC) : Call → Sys → Except Stop Sys
  | .fork => fork lo hi c
  | .exec call => exec lo hi c call
  | .sbrk n => sbrk lo hi c n
  | .pipe => pipe lo hi c
  | .close fd => close lo hi c fd
  | .exit => exit lo hi c
  | .wait => wait lo hi c

/-- The arguments of `exec` are in the memory of the process. -/
def Call.Fits (m : Option Proc) : Call → Prop
  | .exec call => ∀ a ∈ call.args, ∀ pr ∈ m, a.len < pr.sz
  | _ => True

def Returns (s : Sys) (e : Event) (t : Sys) : Prop :=
  (s.slot e.proc).state = .alive ∧ e.call.Fits (s.slot e.proc).mem ∧ runCall lo hi e.proc e.call s = .ok t

/-- The states after calls that return. -/
inductive Run (s : Sys) : List Event → Sys → Prop where
  | nil : Run s [] s
  | snoc {es : List Event} {t u : Sys} {e : Event} (h : Run s es t) (he : Returns lo hi t e u) :
      Run s (es ++ [e]) u

/-- `freerange` of the frames from `a` on. -/
def freerange (a : Nat) : Nat → Free → Free
  | 0, s => s
  | n + 1, s => if h : a ≠ 0 then freerange (a + 1) n ((kmem lo hi).kfree ⟨a, h⟩ s) else s

/-- The state of the system after `main` and `userinit`: `kinit1` has the frames below `mid`, and
`kinit2` the others. -/
def boot (mid : Nat) : Option Sys :=
  match setupkvm (kmem lo hi) (freerange lo hi lo (mid - lo) ⟨[], false⟩) with
  | .ok (some kpgdir, free) =>
    match (kmem lo hi).kalloc (freerange lo hi mid (hi - mid) free) with
    | (some kstack, free) =>
      match setupkvm (kmem lo hi) free with
      | .ok (some d, free) =>
        match (kmem lo hi).kalloc free with
        | (some mem, free) =>
          match mappages (kmem lo hi) d 0 mem true free with
          | .ok (true, d, free) =>
            some
              { free := free
                kpgdir := kpgdir
                slot := fun i =>
                  if i = 0 then ⟨.alive, some kstack, some ⟨PGSIZE, d⟩, 0, fun _ => none⟩
                  else ⟨.unused, none, none, 0, fun _ => none⟩
                file := fun _ => ⟨0, none⟩
                pipe := fun _ => ⟨false, false⟩ }
          | _ => none
        | _ => none
      | _ => none
    | _ => none
  | _ => none

end Xv6.Vm
