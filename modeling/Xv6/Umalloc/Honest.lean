import Xv6.Umalloc.Integrity
import Xv6.Vm.Sbrk

/-!
# Requests of every size

`malloc` with the kernel's `sbrk` behind it, on a process whose heap is in its memory
(`Ready`). The number of units and the bytes for them are computed in 32 bits, and `sbrk`
takes the bytes for a signed number. Up to `2^31 - 16` bytes nothing wraps around, and
`malloc` returns 0 or a block that is as large as it should be, in memory of the process.

Above that it does not: the bytes are a negative number, for which `sbrk` shrinks the process
or does nothing, and `morecore` then takes the end of the process for a new block. The last
seven sizes wrap around to a block of no bytes.
-/

namespace Xv6.Umalloc

open Table RingList Xv6.Vm

variable {σ : Type} {base nbytes nu : Nat} {h h' : Heap} {pr : Vm.Proc}

/-! ## The code with the kernel -/

/-- The first round of `malloc` ends without a block, and `morecore` is called. -/
def Heap.asks (h : Heap) (nunits : Nat) : Bool :=
  match scan (h.enough nunits) h.ptr h.fuel h.freep with
  | some prevp => !decide (nunits ≤ h.size (h.ptr prevp))
  | none => false

/-- What `sbrk` returns, where -1 is a failure. -/
def answerOf (addr : Int) : Option Nat := if addr = -1 then none else some addr.toNat

/-- What a call of `malloc` leaves and returns, with the units that `morecore` has added. -/
structure Outcome (σ : Type) where
  heap : Heap
  proc : Vm.Proc
  mem : σ
  ret : Nat
  added : Nat

/-- `malloc(nbytes)` of a process, with the answer of its `sbrk(nu * sizeof(Header))`. -/
def mallocSys (k : Kmem σ) (base nbytes : Nat) (h : Heap) (pr : Vm.Proc) (s : σ) : Option (Outcome σ) :=
  if (init base h).asks (unitsFor nbytes) then
    match sysSbrk k pr (Int32.ofNat (coreBytes (unitsFor nbytes))) s with
    | .error _ => none
    | .ok (addr, pr, s) =>
      (malloc base h nbytes [answerOf addr]).map fun x =>
        ⟨x.1, pr, s, x.2, if addr = -1 then 0 else coreUnits (unitsFor nbytes)⟩
  else (malloc base h nbytes [none]).map fun x => ⟨x.1, pr, s, x.2, 0⟩

/-- The call returns 0 or a block of `nbytes` in the memory of the process, and `morecore` has added
no more than the process has grown by. -/
structure Honest (pr : Vm.Proc) (nbytes : Nat) (o : Outcome σ) : Prop where
  block : o.ret = 0 ∨ nbytes + HEADER ≤ HEADER * o.heap.size (o.ret - HEADER) ∧
    o.ret - HEADER + HEADER * o.heap.size (o.ret - HEADER) ≤ o.proc.sz
  growth : o.added = 0 ∨ pr.sz + HEADER * o.added ≤ o.proc.sz

structure Ready (base : Nat) (h : Heap) (pr : Vm.Proc) : Prop where
  pos : 0 < base
  static : base + HEADER ≤ pr.sz
  heap : Inv base h
  inside : ∀ r ∈ h.regions, r.1 + r.2 ≤ pr.sz
  step : InStep pr

/-! ## The memory of the allocator -/

theorem joinUpper_regions (h : Heap) (bp p : Nat) : (joinUpper h bp p).regions = h.regions := by
  unfold joinUpper
  split <;> rfl

theorem joinLower_regions (h : Heap) (bp p : Nat) : (joinLower h bp p).regions = h.regions := by
  unfold joinLower
  split <;> rfl

theorem free_regions {ap : Nat} (hf : free h ap = some h') : h'.regions = h.regions := by
  obtain ⟨p, -, rfl⟩ := Option.map_eq_some_iff.mp hf
  exact (joinLower_regions _ _ p).trans (joinUpper_regions h _ p)

theorem take_regions (h : Heap) (nu prevp : Nat) : (take h nu prevp).1.regions = h.regions := by
  unfold take
  dsimp only
  split <;> rfl

theorem secondRound_regions {r : Nat} (hm : mallocLoop nu [] h = some (h', r)) :
    h'.regions = h.regions := by
  obtain ⟨p, -, hm⟩ := Option.bind_eq_some_iff.mp hm
  split at hm
  · have := take_regions h nu p
    rw [Option.some.inj hm] at this
    exact this
  · cases hm

theorem mallocLoop_regions {answer : Option Nat} {r : Nat} (hm : mallocLoop nu [answer] h = some (h', r)) :
    ∀ x ∈ h'.regions, x ∈ h.regions ∨ ∃ a ∈ answer, x = (a, coreBytes nu) := by
  obtain ⟨p, -, hm⟩ := Option.bind_eq_some_iff.mp hm
  split at hm
  · have := take_regions h nu p
    rw [Option.some.inj hm] at this
    rw [this]
    exact fun x hx => Or.inl hx
  · obtain ⟨⟨h₁, fp⟩, hmore, hm⟩ := Option.bind_eq_some_iff.mp hm
    cases answer with
    | none =>
      cases hmore
      rw [if_pos rfl] at hm
      cases hm
      exact fun x hx => Or.inl hx
    | some a =>
      obtain ⟨h₂, hfree, heq⟩ := Option.map_eq_some_iff.mp hmore
      cases heq
      have hreg := free_regions hfree
      have hlast : h'.regions = h₁.regions := by
        split at hm
        · cases hm
          rfl
        · exact secondRound_regions hm
      rw [hlast, hreg]
      intro x hx
      rcases List.mem_cons.mp hx with rfl | hx
      · exact Or.inr ⟨a, rfl, rfl⟩
      · exact Or.inl hx

/-! ## Sizes that do not wrap around -/

theorem unitsFor_enough (hn : nbytes ≤ 2 ^ 31 - 16) : nbytes + HEADER ≤ HEADER * unitsFor nbytes := by
  simp only [unitsFor, HEADER]
  omega

theorem coreBytes_lt (hn : nbytes ≤ 2 ^ 31 - 16) :
    coreBytes (unitsFor nbytes) = HEADER * coreUnits (unitsFor nbytes) ∧
      0 < coreBytes (unitsFor nbytes) ∧ coreBytes (unitsFor nbytes) < 2 ^ 31 := by
  unfold coreBytes coreUnits unitsFor
  simp only [HEADER]
  split <;> omega

theorem sysSbrk_ret {k : Kmem σ} {n : Int32} {s s' : σ} {ret : Int} {pr' : Vm.Proc}
    (hs : sysSbrk k pr n s = .ok (ret, pr', s')) : ret = -1 ∨ ret = pr.sz := by
  unfold sysSbrk at hs
  cases hg : growproc k pr n s with
  | error e =>
    rw [hg] at hs
    cases hs
  | ok x =>
    rw [hg] at hs
    cases hs
    split
    · exact Or.inl rfl
    · exact Or.inr rfl

theorem malloc_block (answer : Option Nat) (sz : Nat) (hr : Ready base h pr) (hn : nbytes ≤ 2 ^ 31 - 16)
    (hfresh : ∀ a ∈ answer, Fresh base h a (coreBytes (unitsFor nbytes)))
    (hsz : pr.sz ≤ sz) (hanswer : ∀ a ∈ answer, a + coreBytes (unitsFor nbytes) ≤ sz) :
    ∃ h' r, malloc base h nbytes [answer] = some (h', r) ∧
      (r = 0 ∨ nbytes + HEADER ≤ HEADER * h'.size (r - HEADER) ∧
        r - HEADER + HEADER * h'.size (r - HEADER) ≤ sz) := by
  obtain ⟨F, hfull⟩ := init_full hr.pos hr.heap
  obtain ⟨h', r, hloop, hor⟩ := hfull.lists.mallocLoop_spec hfull.loose hfull.freep hr.pos
    (unitsFor_pos nbytes) (coreBytes_lt hn).1 fun a ha => init_fresh (hfresh a ha)
  refine ⟨h', r, hloop, ?_⟩
  rcases hor with ⟨rfl, -⟩ | ⟨F', x, rfl, ht⟩
  · exact Or.inl rfl
  · refine Or.inr ?_
    have hlong := unitsFor_enough hn
    rw [Nat.add_sub_cancel, ht.new.2]
    refine ⟨hlong, ?_⟩
    -- the last byte of the block is in a region, and the regions are below `sz`
    have hx : x ∈ F' ∪ insert x (init base h).live := Finset.mem_union_right F' (Finset.mem_insert_self ..)
    have hin := ht.lists.tiles.inside x hx (x + HEADER * unitsFor nbytes - 1)
      (by simp only [HEADER] at *; omega) (by rw [ht.new.2]; simp only [HEADER] at *; omega)
    obtain ⟨reg, hreg, -, hlt⟩ := hin
    have hbelow : reg.1 + reg.2 ≤ sz := by
      rcases mallocLoop_regions hloop reg hreg with hold | ⟨a, ha, rfl⟩
      · have hsame : (init base h).regions = h.regions := by
          unfold init
          split <;> rfl
        rw [hsame] at hold
        exact (hr.inside reg hold).trans hsz
      · exact hanswer a ha
    simp only [HEADER] at *
    omega

theorem malloc_small (k : Kmem σ) (hr : Ready base h pr) (hn : nbytes ≤ 2 ^ 31 - 16) (s : σ) :
    ∃ o, mallocSys k base nbytes h pr s = some o ∧ Honest pr nbytes o := by
  unfold mallocSys
  have hnone := malloc_block none pr.sz hr hn (fun a ha => by cases ha) (Nat.le_refl pr.sz)
    (fun a ha => by cases ha)
  split
  · obtain ⟨hexact, hpos, hlt⟩ := coreBytes_lt hn
    have hint : (Int32.ofNat (coreBytes (unitsFor nbytes))).toInt = coreBytes (unitsFor nbytes) :=
      Int32.toInt_ofNat_of_lt hlt
    have hp : 0 < Int32.ofNat (coreBytes (unitsFor nbytes)) := by
      rw [Int32.lt_iff_toInt_lt, hint]
      exact Int.natCast_pos.mpr hpos
    obtain ⟨ret, pr', s', hs, -, hfail, hok⟩ := sbrk_pos (k := k) hr.step hp s
    rw [hs]
    dsimp only
    by_cases hret : ret = -1
    · obtain ⟨h', r, hm, hblock⟩ := hnone
      have hans : answerOf ret = none := if_pos hret
      rw [hans, hm]
      refine ⟨_, rfl, ⟨?_, Or.inl ?_⟩⟩
      · rw [← (hfail hret).1] at hblock
        exact hblock
      · exact if_pos hret
    · -- the new memory begins where the process ended
      have haddr : ret = pr.sz := (sysSbrk_ret hs).resolve_left hret
      have hgrown := hok hret
      rw [hint] at hgrown
      have hsz : pr'.sz = pr.sz + coreBytes (unitsFor nbytes) := by omega
      have htoNat : ret.toNat = pr.sz := by omega
      have hans : answerOf ret = some pr.sz := by rw [answerOf, if_neg hret, htoNat]
      rw [hans]
      obtain ⟨h', r, hm, hblock⟩ := malloc_block (some pr.sz) pr'.sz hr hn
        (fun a ha => by
          cases ha
          exact ⟨hr.static, fun reg hreg => Or.inr (hr.inside reg hreg)⟩)
        (by omega) (fun a ha => by cases ha; omega)
      rw [hm]
      refine ⟨_, rfl, ⟨hblock, Or.inr ?_⟩⟩
      dsimp only
      rw [if_neg hret, ← hexact]
      omega
  · obtain ⟨h', r, hm, hblock⟩ := hnone
    rw [hm]
    exact ⟨_, rfl, ⟨hblock, Or.inl rfl⟩⟩

/-! ## Sizes that do -/

/-- A process of 100 bytes, with the static header at 64. -/
def smallProc : Vm.Proc := { onePage with sz := 100 }

/-- Its heap before the first call. -/
def smallHeap : Heap := boot (fun _ => 0) fun _ => 0

/-- Memory for it to grow. -/
def smallFree : List Vm.Frame := (List.range 20).map fun i => ⟨i + 10, Nat.succ_ne_zero _⟩

theorem small_ready : Ready 64 smallHeap smallProc := by
  refine ⟨by decide, by decide, Or.inl ⟨rfl, rfl, rfl⟩, fun r hr => absurd hr List.not_mem_nil, ?_⟩
  have hstep := onePage_inStep
  exact ⟨by decide, fun p hp => (hstep.mapped p hp).trans (by
    rw [show pages onePage.sz = pages smallProc.sz from by decide])⟩

/-- A request that is no positive number leaves the process as it is or smaller, and returns its old
size. -/
theorem sysSbrk_small {k : Kmem σ} (pr : Vm.Proc) {n : Int32} (hn : n.toInt ≤ 0) (hne : pr.sz + n.toInt ≠ 0)
    (hsz : 0 < pr.sz) (hk : pr.sz ≤ KERNBASE) (s : σ) :
    ∃ pr' s', sysSbrk k pr n s = .ok ((pr.sz : Int), pr', s') ∧ pr'.sz ≤ pr.sz := by
  have hpos : ¬ 0 < n := by
    rw [Int32.lt_iff_toInt_lt]
    exact fun h => absurd h (by simpa using hn)
  obtain ⟨m, hm⟩ : ∃ m, pr.sz = m + 1 := ⟨pr.sz - 1, by omega⟩
  rw [sysSbrk, growproc, if_neg hpos]
  by_cases hneg : n < 0
  · rw [if_pos hneg]
    by_cases hwrap : pr.sz + n.toInt < 0
    · rw [deallocuvm, if_pos (newSize_wrap hwrap)]
      refine ⟨⟨pr.sz, pr.pgdir⟩, s, ?_, Nat.le_refl _⟩
      rw [hm]
      rfl
    · have hnew : (newSize pr.sz n : Int) = pr.sz + n.toInt := newSize_eq (by omega) hk
      have hn' : n.toInt < 0 := by
        rw [Int32.lt_iff_toInt_lt] at hneg
        exact hneg
      obtain ⟨d, s', heq, -⟩ := deallocuvm_spec (k := k) pr.pgdir
        (show newSize pr.sz n < pr.sz by omega) s
      obtain ⟨m', hm'⟩ : ∃ m', newSize pr.sz n = m' + 1 := ⟨newSize pr.sz n - 1, by omega⟩
      refine ⟨⟨newSize pr.sz n, d⟩, s', ?_, by dsimp only; omega⟩
      rw [heq, hm']
      rfl
  · rw [if_neg hneg]
    exact ⟨pr, s, rfl, Nat.le_refl _⟩

theorem small_scan (nu : Nat) :
    scan ((init 64 smallHeap).enough nu) (init 64 smallHeap).ptr (init 64 smallHeap).fuel
      (init 64 smallHeap).freep = some 64 := by
  have hstop : (init 64 smallHeap).enough nu 64 = true := by
    rw [Heap.enough, decide_eq_true_eq]
    exact Or.inr rfl
  rw [Heap.fuel, scan]
  exact if_pos hstop

theorem small_asks (hnu : 0 < nu) : (init 64 smallHeap).asks nu = true := by
  have hsize : (init 64 smallHeap).size ((init 64 smallHeap).ptr 64) = 0 := rfl
  rw [Heap.asks, small_scan]
  dsimp only
  rw [hsize]
  simp [Nat.not_le.mpr hnu]

/-- The heap when the end of the process is in the free list. -/
def smallGrown (nu : Nat) : Heap :=
  { init 64 smallHeap with
    ptr := upd (upd (init 64 smallHeap).ptr 100 64) 64 100
    size := upd (init 64 smallHeap).size 100 nu
    regions := [(100, coreBytes nu)] }

/-- The heap when `morecore` has set the size of the new header. -/
def smallCore (nu : Nat) : Heap :=
  { init 64 smallHeap with
    size := upd (init 64 smallHeap).size 100 nu
    regions := [(100, coreBytes nu)] }

theorem small_morecore (hnu : 4096 ≤ nu) :
    morecore (init 64 smallHeap) nu (some 100) = some (smallGrown nu, 64) := by
  have hunits : coreUnits nu = nu := if_neg (Nat.not_lt.mpr hnu)
  have hscan : scan ((smallCore nu).between 100) (smallCore nu).ptr (smallCore nu).fuel 64 = some 64 := by
    have hstop : (smallCore nu).between 100 64 = true := by
      rw [Heap.between, decide_eq_true_eq]
      exact Or.inr ⟨Nat.le_refl 64, Or.inl (by decide)⟩
    rw [Heap.fuel, scan, if_pos hstop]
  -- in 32 bits the end of the block is not at 64 either: 8 does not divide the difference
  have hupper : ¬ 100 + HEADER * (smallCore nu).size 100 = (smallCore nu).ptr 64 := by
    rw [show (smallCore nu).size 100 = nu from upd_same (init 64 smallHeap).size 100 nu,
      show (smallCore nu).ptr 64 = 64 from rfl]
    simp only [HEADER]
    omega
  have hfree : free (smallCore nu) 108 = some (smallGrown nu) := by
    rw [free, show 108 - HEADER = 100 from rfl, show (smallCore nu).freep = 64 from rfl, hscan,
      Option.map_some, joinUpper, if_neg hupper]
    rfl
  rw [morecore, hunits]
  exact congrArg (Option.map fun h => (h, h.freep)) hfree

theorem small_block (hnu : 4096 ≤ nu) :
    ∃ h', mallocLoop nu [some 100] (init 64 smallHeap) = some (h', 108) ∧ h'.size 100 = nu := by
  have hsize : (smallGrown nu).size ((smallGrown nu).ptr 64) = nu :=
    upd_same (init 64 smallHeap).size 100 nu
  have hfirst : scan ((init 64 smallHeap).enough nu) (init 64 smallHeap).ptr (init 64 smallHeap).fuel
      (init 64 smallHeap).freep = some 64 := small_scan nu
  have hsecond : scan ((smallGrown nu).enough nu) (smallGrown nu).ptr (smallGrown nu).fuel
      (smallGrown nu).freep = some 64 := by
    have hstop : (smallGrown nu).enough nu 64 = true := by
      rw [Heap.enough, decide_eq_true_eq]
      exact Or.inl hsize.ge
    rw [Heap.fuel, scan]
    exact if_pos hstop
  refine ⟨(take (smallGrown nu) nu 64).1, ?_, ?_⟩
  · rw [mallocLoop, hfirst, Option.bind_some, if_neg (Nat.not_le.mpr (by exact Nat.lt_of_lt_of_le (by decide) hnu)),
      small_morecore hnu, Option.bind_some, if_neg (show ¬ (64 : Nat) = 0 by decide), mallocLoop, hsecond, Option.bind_some,
      if_pos hsize.ge, take, if_pos hsize]
    rfl
  · rw [take, if_pos hsize]
    exact upd_same (init 64 smallHeap).size 100 nu

theorem unitsFor_wrap (hn : 2 ^ 32 - 7 ≤ nbytes) (hn' : nbytes < 2 ^ 32) : unitsFor nbytes = 1 := by
  simp only [unitsFor, HEADER]
  omega

theorem coreBytes_neg (hn : 2 ^ 31 - 16 < nbytes) (hn' : nbytes < 2 ^ 32 - 7) :
    4096 ≤ unitsFor nbytes ∧ (Int32.ofNat (coreBytes (unitsFor nbytes))).toInt ≤ 0 ∧
      (Int32.ofNat (coreBytes (unitsFor nbytes))).toInt % 8 = 0 := by
  have hunits : 2 ^ 28 ≤ unitsFor nbytes ∧ unitsFor nbytes ≤ 2 ^ 29 := by
    simp only [unitsFor, HEADER]
    omega
  have hcore : coreUnits (unitsFor nbytes) = unitsFor nbytes := if_neg (by omega)
  refine ⟨by omega, ?_⟩
  rw [Int32.toInt_ofNat', coreBytes, hcore, Int.bmod_def]
  simp only [HEADER, show Int32.size = 4294967296 from rfl]
  generalize unitsFor nbytes = nu at hunits
  split <;> omega

theorem malloc_big (hn : 2 ^ 31 - 16 < nbytes) (hn' : nbytes < 2 ^ 32) :
    ∃ o, mallocSys freelist 64 nbytes smallHeap smallProc smallFree = some o ∧
      ¬ Honest smallProc nbytes o := by
  by_cases hwrap : nbytes < 2 ^ 32 - 7
  · obtain ⟨hnu, hle, hmod⟩ := coreBytes_neg hn hwrap
    obtain ⟨pr', s', hs, hsz⟩ := sysSbrk_small (k := freelist) smallProc hle
      (by rw [show ((smallProc.sz : Nat) : Int) = 100 from rfl]; omega) (by decide) (by decide) smallFree
    obtain ⟨h', hm, hsize⟩ := small_block hnu
    refine ⟨⟨h', pr', s', 108, coreUnits (unitsFor nbytes)⟩, ?_, fun hh => ?_⟩
    · rw [mallocSys, if_pos (small_asks (Nat.lt_of_lt_of_le (by decide) hnu)), hs]
      dsimp only
      rw [malloc, show answerOf ((smallProc.sz : Nat) : Int) = some 100 from rfl, hm]
      rfl
    · have hblock := hh.block.resolve_left (show ¬ (108 : Nat) = 0 by decide)
      have hend : 100 + HEADER * h'.size 100 ≤ pr'.sz := hblock.2
      rw [hsize] at hend
      simp only [HEADER, smallProc] at hend hsz
      omega
  · -- a block of one unit, for the header alone
    have hsame : mallocSys freelist 64 nbytes smallHeap smallProc smallFree =
        mallocSys freelist 64 (2 ^ 32 - 1) smallHeap smallProc smallFree := by
      simp only [mallocSys, malloc]
      rw [unitsFor_wrap (Nat.not_lt.mp hwrap) hn',
        unitsFor_wrap (show 2 ^ 32 - 7 ≤ 2 ^ 32 - 1 by decide) (by decide)]
    have hrun : (mallocSys freelist 64 (2 ^ 32 - 1) smallHeap smallProc smallFree).map
        (fun o => (o.ret, o.heap.size (o.ret - HEADER))) = some (32868, 1) := by decide +kernel
    obtain ⟨o, ho, heq⟩ := Option.map_eq_some_iff.mp hrun
    obtain ⟨hret, hsize⟩ := Prod.mk.inj heq
    refine ⟨o, hsame.trans ho, fun hh => ?_⟩
    have hblock := hh.block.resolve_left (by omega)
    rw [hsize] at hblock
    simp only [HEADER] at hblock
    omega

/-- **Requests of every size.**  `malloc(nbytes)` is honest in every state if and only if `nbytes` is
at most `2^31 - 16`. -/
theorem malloc_honest_iff (nbytes : Nat) (hn : nbytes < 2 ^ 32) :
    (∀ (σ : Type) (k : Kmem σ) (base : Nat) (h : Heap) (pr : Vm.Proc) (s : σ), Ready base h pr →
      ∃ o, mallocSys k base nbytes h pr s = some o ∧ Honest pr nbytes o) ↔ nbytes ≤ 2 ^ 31 - 16 := by
  constructor
  · intro h
    by_contra hgt
    obtain ⟨o, ho, hnot⟩ := malloc_big (Nat.not_le.mp hgt) hn
    obtain ⟨o', ho', hhon⟩ := h _ freelist 64 smallHeap smallProc smallFree small_ready
    rw [ho] at ho'
    cases ho'
    exact hnot hhon
  · intro h σ k base hp pr s hr
    exact malloc_small k hr h s

/-- A request of a hundred bytes. -/
theorem malloc_honest_iff_small :
    (∀ (σ : Type) (k : Kmem σ) (base : Nat) (h : Heap) (pr : Vm.Proc) (s : σ), Ready base h pr →
      ∃ o, mallocSys k base 100 h pr s = some o ∧ Honest pr 100 o) ↔ 100 ≤ 2 ^ 31 - 16 :=
  malloc_honest_iff 100 (by decide)

/-- A request of all bytes of the address space gets a block of one unit, and a request of half of
them the end of the process, which does not grow. -/
theorem malloc_dishonest : Ready 64 smallHeap smallProc ∧
    (mallocSys freelist 64 (2 ^ 32 - 1) smallHeap smallProc smallFree).map
      (fun o => (o.ret, o.heap.size (o.ret - HEADER), o.proc.sz)) = some (32868, 1, 32868) ∧
    (mallocSys freelist 64 (2 ^ 31 - 8) smallHeap smallProc smallFree).map
      (fun o => (o.ret, o.heap.size (o.ret - HEADER), o.proc.sz)) = some (108, 2 ^ 28, 100) :=
  ⟨small_ready, by decide +kernel, by decide +kernel⟩

end Xv6.Umalloc
