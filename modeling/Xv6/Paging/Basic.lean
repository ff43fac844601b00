import Xv6.Lib.Bytes
import Xv6.Lib.Hoare
import Xv6.Vm.Basic

/-!
# Page tables and pages

The functions of `vm.c` once more, now with the flags of every entry, the kernel's
mappings and the contents of the pages. A page directory is a value, with its page
tables in it; the memory has the free list of `kalloc.c` and the bytes of every
frame. The bytes of a frame that holds a page table are not looked at.

`kalloc` takes the first page of the free list. Other processes allocate too, and
may have left nothing at a call: `deny` says at which of the calls to come.

An address is the number of its page and the offset in it. The loops over addresses
count pages.
-/

namespace Xv6.Paging

open Hoare Table Bytes
open Vm (KERNBASE NPTENTRIES NUPAGE pages)

/-! ## Memory -/

/-- `EXTMEM`, the start of extended memory. -/
abbrev EXTMEM : Nat := 0x100000
/-- `PHYSTOP`, the top of physical memory. -/
abbrev PHYSTOP : Nat := 0xE000000
/-- `DEVSPACE`, where other devices are. -/
abbrev DEVSPACE : Nat := 0xFE000000
/-- The number of frames below `PHYSTOP`. -/
abbrev NFRAME : Nat := PHYSTOP / PGSIZE

/-- Where the linker has put the kernel: its text and read-only data come first, then
its data, and the frames from `first` on are free when it starts. -/
structure Layout where
  /-- The frame of `data`. -/
  data : Nat
  /-- The first frame above `end`. -/
  first : Nat
  text_lt : EXTMEM / PGSIZE < data
  data_lt : data < first
  first_le : first ≤ NFRAME

abbrev Page : Type := Buf PGSIZE

structure Mem where
  /-- `kmem.freelist`. -/
  free : List Nat
  /-- The calls of `kalloc` from now on that find no page. -/
  deny : Nat → Bool
  ram : Nat → Page

/-- Why the kernel stops. -/
inductive Panic where
  | remap
  | kfree
  /-- "loaduvm: addr must be page aligned" -/
  | loaduvmAligned
  /-- "loaduvm: address should exist" -/
  | loaduvmExist
  | clearpteu
  /-- "copyuvm: pte should exist" -/
  | pteShouldExist
  /-- "copyuvm: page not present" -/
  | pageNotPresent
  /-- A null pointer is dereferenced. -/
  | nullPte
deriving DecidableEq, Repr

/-- Code of `vm.c` and `kalloc.c`. -/
abbrev M (α : Type) : Type := Prog Mem Panic α

def kalloc : M (Option Nat) := do
  let m ← get
  match m.free, m.deny 0 with
  | f :: fs, false => do
    set { m with free := fs, deny := fun n => m.deny (n + 1) }
    return some f
  | _, _ => do
    set { m with deny := fun n => m.deny (n + 1) }
    return none

variable (L : Layout)

/-- Free a page. It is filled with junk. -/
def kfree (f : Nat) : M Unit :=
  if f < L.first ∨ NFRAME ≤ f then throw .kfree
  else modify fun m => { m with free := f :: m.free, ram := upd m.ram f fun _ => 1 }

def store (ram : Nat → Page) (f off : Nat) (b : UInt8) : Nat → Page :=
  upd ram f (overlay (ram f) off 1 fun _ => b)

/-- `memmove` of `bs` to the frame `f` from offset `off` on. -/
def memmove (f : Nat) : Nat → List UInt8 → (Nat → Page) → Nat → Page
  | _, [], ram => ram
  | off, b :: bs, ram => memmove f (off + 1) bs (store ram f off b)

/-- `memmove` and `memset` of whole pages. -/
def setPage (f : Nat) (pg : Page) : M Unit := modify fun m => { m with ram := upd m.ram f pg }

/-! ## Entries -/

/-- Present. -/
abbrev PTE_P : BitVec 12 := 0x001
/-- Writeable. -/
abbrev PTE_W : BitVec 12 := 0x002
/-- User. -/
abbrev PTE_U : BitVec 12 := 0x004

/-- An entry of a page table, `PTE_ADDR` and `PTE_FLAGS`. -/
structure Pte where
  frame : Nat
  flags : BitVec 12
deriving DecidableEq, Repr

def Pte.zero : Pte := ⟨0, 0⟩

/-- `*pte & PTE_P`. -/
def Pte.present (e : Pte) : Bool := e.flags.getLsbD 0

/-- `*pte & PTE_U`. -/
def Pte.user (e : Pte) : Bool := e.flags.getLsbD 2

/-- A page table, in its frame. -/
structure Tab where
  frame : Nat
  pte : Fin NPTENTRIES → Pte

/-- A page directory, in its frame. An entry with `PTE_P` refers to a page table. -/
structure Dir where
  frame : Nat
  pde : Fin NPTENTRIES → Option Tab

/-- `PDX` of an address in page `p`. -/
def pdx (p : Nat) : Fin NPTENTRIES := ⟨p / NPTENTRIES % NPTENTRIES, Nat.mod_lt _ (by decide)⟩

/-- `PTX` of an address in page `p`. -/
def ptx (p : Nat) : Fin NPTENTRIES := ⟨p % NPTENTRIES, Nat.mod_lt _ (by decide)⟩

/-- `walkpgdir` without `alloc`: the entry for page `p`, unless its page table is missing. -/
def Dir.pte? (d : Dir) (p : Nat) : Option Pte := (d.pde (pdx p)).map fun t => t.pte (ptx p)

/-- Assign to the entry for page `p`, in a page table that is there. -/
def Dir.setPte (d : Dir) (p : Nat) (e : Pte) : Dir :=
  { d with pde := upd d.pde (pdx p) ((d.pde (pdx p)).map fun t => { t with pte := upd t.pte (ptx p) e }) }

/-- `walkpgdir` with `alloc`: the directory with a page table for page `p`. -/
def walkpgdir (d : Dir) (p : Nat) : M (Option Dir) :=
  match d.pde (pdx p) with
  | some _ => return some d
  | none => do
    match ← kalloc with
    | none => return none
    | some pgtab => return some { d with pde := upd d.pde (pdx p) (some ⟨pgtab, fun _ => Pte.zero⟩) }

/-- The loop of `mappages`, over the given number of pages from page `p` on. The flags are
those of `pa | perm | PTE_P`. -/
def mapLoop (flags : BitVec 12) : Nat → Dir → Nat → Nat → M (Bool × Dir)
  | 0, d, _, _ => return (true, d)
  | n + 1, d, p, f => do
    match ← walkpgdir d p with
    | none => return (false, d)
    | some d =>
      match d.pte? p with
      | none => throw .nullPte
      | some e =>
        if e.present then throw .remap
        else mapLoop flags n (d.setPte p ⟨f, flags⟩) (p + 1) ((f + 1) % 2 ^ 20)

/-- Create entries for the addresses from `va` on that refer to physical addresses from `pa`
on. Returns whether there was memory for the page tables. -/
def mappages (d : Dir) (va size pa : Nat) (perm : BitVec 12) : M (Bool × Dir) :=
  let first := va / PGSIZE
  let last := (va + size + 2 ^ 32 - 1) % 2 ^ 32 / PGSIZE
  mapLoop (BitVec.ofNat 12 pa ||| perm ||| PTE_P) ((last + 2 ^ 20 - first) % 2 ^ 20 + 1) d first
    (pa / PGSIZE)

/-! ## Growing and shrinking -/

/-- The loop of `deallocuvm`, from page `p` to page `stop`. Where there is no page table the
loop goes on at the next one. -/
def deallocLoop : Nat → Nat → Nat → Dir → M Dir
  | 0, _, _, d => return d
  | n + 1, p, stop, d =>
    if p < stop then
      match d.pte? p with
      | none => deallocLoop n ((p / NPTENTRIES + 1) * NPTENTRIES) stop d
      | some e =>
        if e.present then
          if e.frame = 0 then throw .kfree
          else do
            kfree L e.frame
            deallocLoop n (p + 1) stop (d.setPte p Pte.zero)
        else deallocLoop n (p + 1) stop d
    else return d

def deallocuvm (d : Dir) (oldsz newsz : Nat) : M (Nat × Dir) :=
  if oldsz ≤ newsz then return (oldsz, d)
  else do
    let d ← deallocLoop L (pages oldsz - pages newsz) (pages newsz) (pages oldsz) d
    return (newsz, d)

/-! ## Whole address spaces -/

def freeTables (d : Dir) : List (Fin NPTENTRIES) → M Unit
  | [] => return ()
  | i :: is => do
    (match d.pde i with
    | some t => kfree L t.frame
    | none => pure ())
    freeTables d is

/-- Free a page table and all the physical memory pages in the user part. -/
def freevm (d : Dir) : M Unit := do
  let (_, d) ← deallocuvm L d KERNBASE 0
  freeTables L d (List.finRange NPTENTRIES)
  kfree L d.frame

/-- `struct kmap`. -/
structure Kmap where
  virt : Nat
  physStart : Nat
  physEnd : Nat
  perm : BitVec 12

/-- The kernel's mappings, which are present in every process's page table. -/
def kmap : List Kmap :=
  [⟨KERNBASE, 0, EXTMEM, PTE_W⟩,
   ⟨KERNBASE + EXTMEM, EXTMEM, L.data * PGSIZE, 0⟩,
   ⟨KERNBASE + L.data * PGSIZE, L.data * PGSIZE, PHYSTOP, PTE_W⟩,
   ⟨DEVSPACE, DEVSPACE, 0, PTE_W⟩]

def mapKernel : List Kmap → Dir → M (Option Dir)
  | [], d => return some d
  | k :: ks, d => do
    match ← mappages d k.virt ((k.physEnd + 2 ^ 32 - k.physStart) % 2 ^ 32) k.physStart k.perm with
    | (true, d) => mapKernel ks d
    | (false, d) => do
      freevm L d
      return none

/-- Set up kernel part of a page table. -/
def setupkvm : M (Option Dir) := do
  match ← kalloc with
  | none => return none
  | some pgdir => mapKernel L (kmap L) ⟨pgdir, fun _ => none⟩

/-- The loop of `copyuvm`, over the given number of pages from page `p` on, with what follows
at `bad`. -/
def copyLoop (pgdir : Dir) : Nat → Nat → Dir → M (Option Dir)
  | 0, _, d => return some d
  | n + 1, p, d =>
    match pgdir.pte? p with
    | none => throw .pteShouldExist
    | some e =>
      if e.present then do
        match ← kalloc with
        | none => do
          freevm L d
          return none
        | some mem => do
          setPage mem ((← get).ram e.frame)
          match ← mappages d (p * PGSIZE) PGSIZE (mem * PGSIZE) e.flags with
          | (false, d) => do
            kfree L mem
            freevm L d
            return none
          | (true, d) => copyLoop pgdir n (p + 1) d
      else throw .pageNotPresent

/-- Given a parent process's page table, create a copy of it for a child. -/
def copyuvm (pgdir : Dir) (sz : Nat) : M (Option Dir) := do
  match ← setupkvm L with
  | none => return none
  | some d => copyLoop L pgdir (pages sz) 0 d

/-! ## Copying out -/

/-- Map user virtual address to kernel address: the frame of page `p`. It does not test what
`walkpgdir` returns. -/
def uva2ka (d : Dir) (p : Nat) : M (Option Nat) :=
  match d.pte? p with
  | none => throw .nullPte
  | some e =>
    if e.present = false then return none
    else if e.user = false then return none
    else return some e.frame

/-- The loop of `copyout`, which takes at least one byte off `buf` each time. -/
def copyoutLoop (d : Dir) : Nat → Nat → List UInt8 → M Int
  | 0, _, _ => return 0
  | fuel + 1, va, buf =>
    if buf.length = 0 then return 0
    else do
      match ← uva2ka d (va / PGSIZE) with
      | none => return -1
      | some pa0 => do
        let n := min (PGSIZE - va % PGSIZE) buf.length
        modify fun m => { m with ram := memmove pa0 (va % PGSIZE) (buf.take n) m.ram }
        copyoutLoop d fuel ((va / PGSIZE + 1) * PGSIZE % 2 ^ 32) (buf.drop n)

/-- Copy the bytes `buf` to user address `va` in page table `d`. -/
def copyout (d : Dir) (va : Nat) (buf : List UInt8) : M Int := copyoutLoop d buf.length va buf

end Xv6.Paging
