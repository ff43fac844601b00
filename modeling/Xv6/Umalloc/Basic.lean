import Mathlib
import Xv6.Lib.RingList
import Xv6.Lib.Trans

/-!
# The allocator of user programs

`malloc` and `free` keep the free blocks in a ring of headers through the static header
`base`, in the order of their addresses. A header is at an address and has the address
of the next header and the number of units of its block, itself included. The loops
follow the pointers; each has fuel for more headers than there can be.

`sbrk` is a call to the kernel: its answer is part of the event, the address of the new
memory or a failure. Between calls the program writes into its blocks.
-/

namespace Xv6.Umalloc

open Table RingList Trans

/-- `sizeof(Header)`. -/
abbrev HEADER : Nat := 8

/-- The units of a block of `nbytes` bytes and its header. -/
def unitsFor (nbytes : Nat) : Nat := (nbytes + HEADER - 1) % 2 ^ 32 / HEADER + 1

/-- The units that `morecore` asks for. -/
def coreUnits (nu : Nat) : Nat := if nu < 4096 then 4096 else nu

/-- The argument of `sbrk`. -/
def coreBytes (nu : Nat) : Nat := coreUnits nu * HEADER % 2 ^ 32

/-- The memory of the allocator, and what the program and the kernel know of it. -/
structure Heap where
  /-- `s.ptr` of the header at an address. -/
  ptr : Nat → Nat
  /-- `s.size` of the header at an address. -/
  size : Nat → Nat
  freep : Nat
  /-- The headers of the blocks that the program has. -/
  live : Finset Nat
  /-- The bytes that the program asked for. -/
  want : Nat → Nat
  /-- The memory obtained from `sbrk`: addresses and lengths. -/
  regions : List (Nat × Nat)

/-- The bytes obtained from `sbrk`. -/
def Heap.bytes (h : Heap) : Nat := (h.regions.map Prod.snd).sum

def Heap.fuel (h : Heap) : Nat := 2 * h.bytes + 3

/-! ## `free` -/

/-- The test that ends the loop of `free`. -/
def Heap.between (h : Heap) (bp p : Nat) : Bool :=
  bp > p ∧ bp < h.ptr p ∨ p ≥ h.ptr p ∧ (bp > p ∨ bp < h.ptr p)

/-- Join the block at `bp` to the one after `p`. -/
def joinUpper (h : Heap) (bp p : Nat) : Heap :=
  if bp + HEADER * h.size bp = h.ptr p then
    { h with
      size := upd h.size bp (h.size bp + h.size (h.ptr p))
      ptr := upd h.ptr bp (h.ptr (h.ptr p)) }
  else { h with ptr := upd h.ptr bp (h.ptr p) }

/-- Join the block at `p` to the one at `bp`. -/
def joinLower (h : Heap) (bp p : Nat) : Heap :=
  if p + HEADER * h.size p = bp then
    { h with
      size := upd h.size p (h.size p + h.size bp)
      ptr := upd h.ptr p (h.ptr bp) }
  else { h with ptr := upd h.ptr p bp }

def free (h : Heap) (ap : Nat) : Option Heap :=
  let bp := ap - HEADER
  (scan (h.between bp) h.ptr h.fuel h.freep).map fun p =>
    { joinLower (joinUpper h bp p) bp p with freep := p }

/-! ## `malloc` -/

/-- `morecore`, with the answer of `sbrk`. -/
def morecore (h : Heap) (nu : Nat) : Option Nat → Option (Heap × Nat)
  | none => some (h, 0)
  | some hp =>
    (free
      { h with
        size := upd h.size hp (coreUnits nu)
        regions := (hp, coreBytes nu) :: h.regions }
      (hp + HEADER)).map fun h => (h, h.freep)

/-- The test that ends a round of `malloc`, at the header before the one it looks at. -/
def Heap.enough (h : Heap) (nunits prevp : Nat) : Bool :=
  nunits ≤ h.size (h.ptr prevp) ∨ h.ptr prevp = h.freep

/-- Take the block after `prevp`, or its tail. -/
def take (h : Heap) (nunits prevp : Nat) : Heap × Nat :=
  let p := h.ptr prevp
  if h.size p = nunits then
    ({ h with ptr := upd h.ptr prevp (h.ptr p), freep := prevp }, p + HEADER)
  else
    let q := p + HEADER * (h.size p - nunits)
    ({ h with size := upd (upd h.size p (h.size p - nunits)) q nunits, freep := prevp }, q + HEADER)

/-- The loop of `malloc`: a round from `freep` on, and another one after `morecore`. -/
def mallocLoop (nunits : Nat) : List (Option Nat) → Heap → Option (Heap × Nat)
  | [], h =>
    (scan (h.enough nunits) h.ptr h.fuel h.freep).bind fun prevp =>
      if nunits ≤ h.size (h.ptr prevp) then some (take h nunits prevp) else none
  | answer :: answers, h =>
    (scan (h.enough nunits) h.ptr h.fuel h.freep).bind fun prevp =>
      if nunits ≤ h.size (h.ptr prevp) then some (take h nunits prevp)
      else
        (morecore h nunits answer).bind fun x =>
          if x.2 = 0 then some (x.1, 0) else mallocLoop nunits answers x.1

/-- The ring of the first call. -/
def init (base : Nat) (h : Heap) : Heap :=
  if h.freep = 0 then
    { h with ptr := upd h.ptr base base, freep := base, size := upd h.size base 0 }
  else h

def malloc (base : Nat) (h : Heap) (nbytes : Nat) (answers : List (Option Nat)) :
    Option (Heap × Nat) :=
  mallocLoop (unitsFor nbytes) answers (init base h)

/-! ## Programs -/

/-- What a program calls, with the answer of `sbrk` if it is asked. -/
inductive Call where
  | malloc (nbytes : Nat) (answer : Option Nat)
  | free (ap : Nat)

inductive Event where
  | call (c : Call)
  /-- A write into a block of the program. -/
  | store (c ptr size : Nat)

/-- Before the first call. -/
def boot (ptr size : Nat → Nat) : Heap where
  ptr := ptr
  size := size
  freep := 0
  live := ∅
  want := fun _ => 0
  regions := []

/-- The memory is above the static header and apart from what `sbrk` gave before. -/
def Fresh (base : Nat) (h : Heap) (hp bytes : Nat) : Prop :=
  base + HEADER ≤ hp ∧ ∀ r ∈ h.regions, hp + bytes ≤ r.1 ∨ r.1 + r.2 ≤ hp

instance (base : Nat) (h : Heap) (hp bytes : Nat) : Decidable (Fresh base h hp bytes) :=
  inferInstanceAs (Decidable (_ ∧ _))

/-- A request of at most `2^30` bytes, with an answer of fresh memory, or a block that the
program has. -/
def Legal (base : Nat) (h : Heap) : Call → Prop
  | .malloc nbytes answer =>
    nbytes ≤ 2 ^ 30 ∧ ∀ hp ∈ answer, Fresh base h hp (coreBytes (unitsFor nbytes))
  | .free ap => ap - HEADER ∈ h.live ∧ HEADER ≤ ap

instance (base : Nat) (h : Heap) : (c : Call) → Decidable (Legal base h c)
  | .malloc n none => decidable_of_iff (n ≤ 2 ^ 30) (by simp [Legal])
  | .malloc n (some hp) =>
    decidable_of_iff (n ≤ 2 ^ 30 ∧ Fresh base h hp (coreBytes (unitsFor n))) (by simp [Legal])
  | .free _ => inferInstanceAs (Decidable (_ ∧ _))

def exec (base : Nat) (h : Heap) : Call → Option (Heap × Nat)
  | .malloc nbytes answer =>
    (malloc base h nbytes [answer]).map fun x =>
      if x.2 = 0 then x
      else
        ({ x.1 with
            live := insert (x.2 - HEADER) x.1.live
            want := upd x.1.want (x.2 - HEADER) nbytes }, x.2)
  | .free ap => (free h ap).map fun h => ({ h with live := h.live.erase (ap - HEADER) }, 0)

/-- The address is in a block of the program, after its header. -/
def Heap.Payload (h : Heap) (c : Nat) : Prop := ∃ x ∈ h.live, x < c ∧ c < x + HEADER * h.size x

instance (h : Heap) (c : Nat) : Decidable (h.Payload c) := Finset.decidableExistsAndFinset

def step (base : Nat) (h : Heap) : Event → Option Heap
  | .call c => if Legal base h c then (exec base h c).map Prod.fst else none
  | .store c ptr size =>
    if h.Payload c then some { h with ptr := upd h.ptr c ptr, size := upd h.size c size } else none

end Xv6.Umalloc
